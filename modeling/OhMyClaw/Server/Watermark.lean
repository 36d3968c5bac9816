import OhMyClaw.Server.Detached

/-!
# History and replay

A client that comes back reads the session's history, takes the largest seq in it and resumes
the run from there.  What it has then is the text of the run's records up to that seq and the
deltas the log still hands out.  The two fit together if every record with text up to that seq
has its mark in the log, no record with text was lost before one that is marked, and the ring
still has the deltas behind the last mark.

    no_gap_no_overlap         the two make up the answer, as long as every resume is `Clean`
    no_gap_no_overlap_fails   the history is read between a record's commit and its mark
-/

namespace OhMyClaw

namespace Detached

open Run (Drive)

/-- The record is in a history that goes up to `s`. -/
def within (s : Int) (w : Write) : Bool :=
  match w.fate with
  | .stored q => q ≤ s
  | _ => false

/-- The records up to `s` are the text before some point, and the subscriber is handed the deltas
behind it. -/
def Split (x : Detached) (s : Int) (sub : LogSub) : Prop :=
  ∃ m ≤ x.events.length, told (x.writes.filter (within s)) = spoken (x.events.take m) ∧
    (forwarded sub).filter Event.isAssistant = (x.events.drop m).filter Event.isAssistant

/-- For all who resumed the run and are still there, every delta is in the history or forwarded,
and none is both. -/
def NoGapNoOverlap (x : Detached) : Prop :=
  ∀ (i : Nat) (s : Int) (sub : LogSub), x.since[i]? = some s → x.log.subs[i]? = some sub →
    sub.live = true → Split x s sub

/-- Whoever resumes the run names the largest seq of the history it has read. -/
def Honest (x : Detached) : Act → Prop
  | .resume s => s ∈ x.reads
  | _ => True

/-- A resume from `s` finds a log that fits the history up to `s`. -/
structure Clean (x : Detached) (s : Int) : Prop where
  /-- Records with text are marked. -/
  marked : ∀ w ∈ x.writes, w.entry.spoken ≠ "" → ∀ q, w.fate = .stored q → q ≤ s →
    ∃ m ∈ x.log.marks, m.1 = q
  /-- No text was lost in front of a mark. -/
  kept : ∀ before w behind, x.writes = before ++ w :: behind → w.entry.spoken ≠ "" →
    w.fate = .refused → ∀ w' ∈ behind, ∀ q, w'.fate = .stored q → q ≤ s → ∀ m ∈ x.log.marks, m.1 ≠ q
  /-- The deltas the ring has lost are in front of a mark. -/
  held : ∀ i e, x.events[i]? = some e → e.isAssistant = true → i + logCap < x.events.length →
    ∃ m ∈ x.log.marks, m.1 ≤ s ∧ i < m.2

/-- A resume that finds a log out of step with the history. -/
def Tears (x : Detached) : Act → Prop
  | .resume s => x.logged = true ∧ ¬ Clean x s
  | _ => False

/-! ## Marks and records -/

/-- A mark stands for a stored record: what had been pushed by then is the text up to that record. -/
def MarkOf (x : Detached) (m : Int × Nat) : Prop :=
  ∃ before w behind, x.writes = before ++ w :: behind ∧ w.fate = .stored m.1 ∧
    m.2 ≤ x.events.length ∧ spoken (x.events.take m.2) = told (before ++ [w])

/-- The driver will ask for no further record. -/
def Finishing : Run.Pc → Prop
  | .sending _ (.returns _) => True
  | .done _ => True
  | _ => False

/-- The run's records are numbered upwards, and each mark belongs to one of them. -/
structure Books (x : Detached) : Prop where
  seqs : ∀ w ∈ x.writes, ∀ q, w.fate = .stored q → q ≤ x.lastSeq
  rising : x.writes.Pairwise fun a b => ∀ p q, a.fate = .stored p → b.fate = .stored q → p < q
  settled : ∀ before w behind, x.writes = before ++ w :: behind → behind ≠ [] → w.fate ≠ .pending
  marks : ∀ m ∈ x.log.marks, MarkOf x m
  sorted : x.log.marks.Pairwise fun a b => a.1 < b.1 ∧ a.2 ≤ b.2

/-- What the driver waits for, and what it knows. -/
structure Informed (x : Detached) (d : Drive) : Prop where
  /-- The record the driver waits for is the last one, and not marked yet. -/
  asked : ∀ e, d.pc.asked = some e → ∃ ws fate, x.writes = ws ++ [{ entry := e, fate }] ∧
    ∀ m ∈ x.log.marks, fate ≠ .stored m.1
  /-- A driver that may ask for another record has the answer to the last one. -/
  answered : d.pc.asked = none → ¬ Finishing d.pc → ∀ w ∈ x.writes, w.fate ≠ .pending

structure InStep (x : Detached) : Prop where
  books : Books x
  informed : ∀ d, x.phase = .driving d → Informed x d

theorem accepted_inStep (lastSeq : Int) : InStep (accepted lastSeq) := by
  refine ⟨?_, by simp [accepted]⟩
  constructor <;> simp [accepted, RunLog.new]

theorem MarkOf.mem {x : Detached} {m : Int × Nat} (h : MarkOf x m) :
    ∃ w ∈ x.writes, w.fate = .stored m.1 := by
  obtain ⟨before, w, behind, hws, hfate, -⟩ := h
  exact ⟨w, by simp [hws], hfate⟩

/-- A list split at an item, and split off its last item. -/
theorem split_concat {α : Type} {ws before behind : List α} {p w : α}
    (h : ws ++ [p] = before ++ w :: behind) :
    (behind = [] ∧ w = p ∧ before = ws) ∨
      ∃ behind', behind = behind' ++ [p] ∧ ws = before ++ w :: behind' := by
  rcases List.append_eq_append_iff.1 h with ⟨mid, hbefore, hlast⟩ | ⟨mid, hws, hrest⟩
  · cases mid with
    | nil =>
      obtain ⟨rfl, rfl⟩ := List.cons.inj hlast
      exact Or.inl ⟨rfl, rfl, by simpa using hbefore⟩
    | cons x xs => simp at hlast
  · cases mid with
    | nil =>
      obtain ⟨rfl, rfl⟩ := List.cons.inj hrest
      exact Or.inl ⟨rfl, rfl, by simpa using hws.symm⟩
    | cons x xs =>
      obtain ⟨rfl, rfl⟩ := List.cons.inj hrest
      exact Or.inr ⟨xs, rfl, hws⟩

/-! ## The driver's part -/

theorem step_finishing {ctx : RunCtx} {d d' : Drive} {a : Run.Act} (h : Finishing d.pc)
    (hstep : Run.step ctx d a = some d') : Finishing d'.pc := by
  have hno {pc : Run.Pc} (hpc : d.pc = pc) (hpc' : ¬ Finishing pc) : Finishing d'.pc :=
    absurd (hpc ▸ h) hpc'
  cases Run.leg_of_step hstep with
  | @sent ev k ok hpc hok =>
    rw [hpc] at h
    cases k with
    | returns o => exact trivial
    | _ => exact h.elim
  | opened hpc => exact hno hpc id
  | openFailed hpc => exact hno hpc id
  | closed hpc hsink =>
    rcases hpc with hpc | ⟨tc, hpc⟩
    · exact hno hpc id
    · exact hno hpc id
  | delta hpc => exact hno hpc id
  | streamErr hpc => exact hno hpc id
  | streamEnd hpc => exact hno hpc id
  | cancelled hpc hcancel => exact hno hpc id
  | idle hpc => exact hno hpc id
  | stored hpc => exact hno hpc id
  | toolDone hpc => exact hno hpc id
  | side hpumps hok => exact h
  | abort => exact h
  | runTimeout ht hfirst hpc =>
    show Finishing (Run.emitInline ctx _ _ _).pc
    rw [Run.emitInline_pc]
    exact trivial
  | panic hpc => exact trivial

/-- A driver that waits for a record gets its answer, or goes on waiting, or gives up. -/
theorem step_asked {ctx : RunCtx} {d d' : Drive} {a : Run.Act} {e : NewEntry}
    (h : d.pc.asked = some e) (hstep : Run.step ctx d a = some d') :
    (∃ ok, a = .stored ok) ∨ d'.pc = d.pc ∨ Finishing d'.pc ∧ d'.pc.asked = none := by
  have hno {pc : Run.Pc} (hpc : d.pc = pc) (hpc' : pc.asked = none) :
      (∃ ok, a = .stored ok) ∨ d'.pc = d.pc ∨ Finishing d'.pc ∧ d'.pc.asked = none := by
    rw [hpc, hpc'] at h
    simp at h
  cases Run.leg_of_step hstep with
  | sent hpc hok => exact hno hpc rfl
  | opened hpc => exact hno hpc rfl
  | openFailed hpc => exact hno hpc rfl
  | closed hpc hsink =>
    rcases hpc with hpc | ⟨tc, hpc⟩
    · exact hno hpc rfl
    · exact hno hpc rfl
  | delta hpc => exact hno hpc rfl
  | streamErr hpc => exact hno hpc rfl
  | streamEnd hpc => exact hno hpc rfl
  | cancelled hpc hcancel => exact hno hpc rfl
  | idle hpc => exact hno hpc rfl
  | @stored e k ok hpc => exact Or.inl ⟨ok, rfl⟩
  | toolDone hpc => exact hno hpc rfl
  | side hpumps hok => exact Or.inr (Or.inl rfl)
  | abort => exact Or.inr (Or.inl rfl)
  | runTimeout ht hfirst hpc =>
    refine Or.inr (Or.inr ?_)
    show Finishing (Run.emitInline ctx _ _ _).pc ∧ (Run.emitInline ctx _ _ _).pc.asked = none
    rw [Run.emitInline_pc]
    exact ⟨trivial, rfl⟩
  | panic hpc =>
    rcases hpc with (hpc | ⟨tc, hpc⟩) | ⟨call, hpc⟩
    · exact hno hpc rfl
    · exact hno hpc rfl
    · exact hno hpc rfl

theorem step_stored_asked {ctx : RunCtx} {d d' : Drive} {ok : Bool}
    (hstep : Run.step ctx d (.stored ok) = some d') :
    d'.pc.asked = none ∧ ∃ e, d.pc.asked = some e := by
  cases Run.leg_of_step hstep with
  | @stored e k ok hpc => exact ⟨Run.afterPersist_asked k _, e, by rw [hpc]; rfl⟩

/-- While the driver waits for a record, all its text is told. -/
theorem voiced_asked {told : String} {d : Drive} {e : NewEntry} (h : Run.Voiced told d)
    (he : d.pc.asked = some e) : spoken d.events = told := by
  cases hpc : d.pc with
  | persisting e' k =>
    have hk := Run.voiced_pc h hpc
    cases k with
    | finish => exact hk.2
    | loopCheck call => exact hk.text
    | feedBack call output => exact hk.text
  | _ => simp [hpc, Run.Pc.asked] at he

/-! ## The steps -/

theorem Books.of_same {x y : Detached} (h : Books x) (hwrites : y.writes = x.writes)
    (hmarks : y.log.marks = x.log.marks) (hevents : x.events <+: y.events)
    (hseq : x.lastSeq ≤ y.lastSeq) : Books y where
  seqs w hw q hq := (h.seqs w (hwrites ▸ hw) q hq).trans hseq
  rising := hwrites ▸ h.rising
  settled := hwrites ▸ h.settled
  marks m hm := by
    obtain ⟨before, w, behind, hws, hfate, hle, htext⟩ := h.marks m (hmarks ▸ hm)
    obtain ⟨new, hnew⟩ := hevents
    refine ⟨before, w, behind, hwrites ▸ hws, hfate, ?_, ?_⟩
    · rw [← hnew, List.length_append]
      omega
    · rw [← hnew, List.take_append_of_le_length hle]
      exact htext
  sorted := hmarks ▸ h.sorted

theorem Books.ask {x : Detached} (h : Books x) (hno : ∀ w ∈ x.writes, w.fate ≠ .pending)
    (entry : NewEntry) : Books { x with writes := x.writes ++ [{ entry, fate := .pending }] } where
  seqs w hw q hq := by
    rcases List.mem_append.1 hw with hw | hw
    · exact h.seqs w hw q hq
    · obtain rfl := List.mem_singleton.1 hw
      simp at hq
  rising := by
    refine List.pairwise_append.2 ⟨h.rising, List.pairwise_singleton _ _, fun a _ b hb p q _ hq => ?_⟩
    obtain rfl := List.mem_singleton.1 hb
    simp at hq
  settled before w behind hws hne := by
    rcases split_concat hws with ⟨hnil, -⟩ | ⟨behind', -, hws'⟩
    · exact absurd hnil hne
    · exact hno w (by simp [hws'])
  marks m hm := by
    obtain ⟨before, w, behind, hws, hfate, hle, htext⟩ := h.marks m hm
    exact ⟨before, w, behind ++ [{ entry, fate := .pending }], by simp [hws], hfate, hle, htext⟩
  sorted := h.sorted

/-- The last write is settled. -/
theorem Books.settle {x y : Detached} {ws : List Write} {e : NewEntry} {fate : Fate} (h : Books x)
    (hws : x.writes = ws ++ [{ entry := e, fate := .pending }])
    (hws' : y.writes = ws ++ [{ entry := e, fate }]) (hlog : y.log = x.log)
    (hphase : y.phase = x.phase) (hseq : x.lastSeq ≤ y.lastSeq)
    (hfate : ∀ q, fate = .stored q → x.lastSeq < q ∧ q ≤ y.lastSeq) : Books y := by
  have hold (w : Write) (hw : w ∈ ws) (q : Int) (hq : w.fate = .stored q) : q ≤ x.lastSeq :=
    h.seqs w (by simp [hws, hw]) q hq
  have hevents : y.events = x.events := by simp only [events, hphase]
  constructor
  · intro w hw q hq
    rw [hws', List.mem_append, List.mem_singleton] at hw
    rcases hw with hw | rfl
    · exact (hold w hw q hq).trans hseq
    · exact (hfate q hq).2
  · have hrising := h.rising
    rw [hws, List.pairwise_append] at hrising
    rw [hws']
    refine List.pairwise_append.2 ⟨hrising.1, List.pairwise_singleton _ _, fun a ha b hb p q hp hq => ?_⟩
    obtain rfl := List.mem_singleton.1 hb
    exact lt_of_le_of_lt (hold a ha p hp) (hfate q hq).1
  · intro before w behind hsplit hne
    rw [hws'] at hsplit
    rcases split_concat hsplit with ⟨hnil, -⟩ | ⟨behind', -, hws₀⟩
    · exact absurd hnil hne
    · exact h.settled before w (behind' ++ [{ entry := e, fate := .pending }]) (by simp [hws, hws₀])
        (by simp)
  · intro m hm
    obtain ⟨before, w, behind, hsplit, hw, hle, htext⟩ := h.marks m (hlog ▸ hm)
    rw [hws] at hsplit
    rcases split_concat hsplit with ⟨-, rfl, -⟩ | ⟨behind', -, hws₀⟩
    · simp at hw
    · refine ⟨before, w, behind' ++ [{ entry := e, fate }], by simp [hws', hws₀], hw, ?_, ?_⟩
      · rw [hevents]
        exact hle
      · rw [hevents]
        exact htext
  · rw [hlog]
    exact h.sorted

/-- The last record, which has been stored, is marked. -/
theorem Books.mark {x : Detached} {ws : List Write} {e : NewEntry} {q : Int} (h : Books x)
    (hws : x.writes = ws ++ [{ entry := e, fate := .stored q }])
    (hnew : ∀ m ∈ x.log.marks, m.1 ≠ q) (hpushed : x.log.ring.pushed = x.events.length)
    (htext : spoken x.events = told x.writes) :
    Books { x with log := x.log.markPersisted q } where
  seqs := h.seqs
  rising := h.rising
  settled := h.settled
  marks m hm := by
    simp only [RunLog.markPersisted, List.mem_append, List.mem_singleton] at hm
    rcases hm with hm | rfl
    · exact h.marks m hm
    · refine ⟨ws, _, [], hws, rfl, le_of_eq hpushed, ?_⟩
      show spoken (x.events.take x.log.ring.pushed) = _
      rw [hpushed, List.take_length, htext, hws]
  sorted := by
    refine List.pairwise_append.2 ⟨h.sorted, List.pairwise_singleton _ _, fun m hm m' hm' => ?_⟩
    obtain rfl := List.mem_singleton.1 hm'
    obtain ⟨before, w, behind, hsplit, hw, hle, -⟩ := h.marks m hm
    refine ⟨?_, hpushed ▸ hle⟩
    rw [hws] at hsplit
    rcases split_concat hsplit with ⟨-, rfl, -⟩ | ⟨behind', -, hws₀⟩
    · exact absurd (Fate.stored.inj hw).symm (hnew m hm)
    · have hrising := h.rising
      rw [hws, List.pairwise_append] at hrising
      exact hrising.2.2 w (by simp [hws₀]) _ (List.mem_singleton_self _) _ _ hw rfl

theorem last_of_answer {x : Detached} {ok : Bool} (h : x.answer = some ok) :
    ∃ ws e fate, x.writes = ws ++ [{ entry := e, fate }] ∧ fate.answer = some ok := by
  unfold answer at h
  obtain ⟨⟨e, fate⟩, hlast, hfate⟩ := Option.bind_eq_some_iff.1 h
  obtain ⟨ws, hws⟩ := List.getLast?_eq_some_iff.1 hlast
  exact ⟨ws, e, fate, hws, hfate⟩

/-- Before the driver goes on behind a stored record, the record is marked. -/
theorem InStep.marked {x : Detached} {d : Drive} {ok : Bool} (hk : Kept x) (h : InStep x)
    (hphase : x.phase = .driving d) (hanswer : x.answer = some ok) {e : NewEntry}
    (hasked : d.pc.asked = some e) : Books { x with log := x.marked } := by
  obtain ⟨ws, e', fate, hws, hfate⟩ := last_of_answer hanswer
  have hlast : x.writes.getLast? = some { entry := e', fate } := by simp [hws]
  cases fate with
  | pending => simp [Fate.answer] at hfate
  | refused =>
    have hmarked : x.marked = x.log := by simp only [Detached.marked, hlast]
    rw [hmarked]
    exact h.books
  | stored q =>
    have hmarked : x.marked = x.log.markPersisted q := by simp only [Detached.marked, hlast]
    rw [hmarked]
    obtain ⟨ws', fate', hws', hnew⟩ := (h.informed d hphase).asked e hasked
    have hsame := List.append_inj' (hws.symm.trans hws') rfl
    simp only [List.cons.injEq, Write.mk.injEq, and_true] at hsame
    obtain ⟨-, -, rfl⟩ := hsame
    have hevents : x.events = d.events := by simp only [events, hphase]
    refine h.books.mark hws (fun m hm hq => hnew m hm (by rw [hq])) hk.ring.pushed ?_
    rcases hk.voiced d hphase with hvoiced | hsilent
    · rw [hevents]
      exact voiced_asked hvoiced hasked
    · rw [hsilent.pc] at hasked
      simp [Run.Pc.asked] at hasked

theorem drive_books {ctx : RunCtx} {x : Detached} {d d' : Drive} {a : Run.Act} (h : Books x)
    (hphase : x.phase = .driving d)
    (hno : (Run.asks d d').isSome = true → ∀ w ∈ x.writes, w.fate ≠ .pending)
    (hstep : Run.step ctx d a = some d') : Books (x.drive x.log d d') := by
  have hevents : x.events <+: (x.drive x.log d d').events := by
    simp only [events, hphase, drive]
    exact ⟨_, (events_fresh hstep).symm⟩
  cases hasks : Run.asks d d' with
  | none =>
    refine h.of_same ?_ (pushAll_marks _ _) hevents le_rfl
    simp [drive, hasks]
  | some e =>
    refine (h.ask (hno (by simp [hasks])) e).of_same ?_ (pushAll_marks _ _) hevents le_rfl
    simp [drive, hasks]

theorem drive_inStep {ctx : RunCtx} {x : Detached} {d d' : Drive} {a : Run.Act} (h : InStep x)
    (hphase : x.phase = .driving d) (ha : ∀ ok, a ≠ .stored ok)
    (hstep : Run.step ctx d a = some d') : InStep (x.drive x.log d d') := by
  have hinf := h.informed d hphase
  have hgo (hasked : d.pc.asked = none) (hd' : ¬ Finishing d'.pc) : ∀ w ∈ x.writes, w.fate ≠ .pending :=
    hinf.answered hasked fun hfin => hd' (step_finishing hfin hstep)
  cases hasked : d.pc.asked with
  | none =>
    have hasks : Run.asks d d' = d'.pc.asked := by simp [Run.asks, hasked]
    have hno : (Run.asks d d').isSome = true → ¬ Finishing d'.pc := by
      rw [hasks]
      intro hsome hfin
      cases hpc : d'.pc with
      | persisting e k =>
        rw [hpc] at hfin
        exact hfin
      | _ => simp [hpc, Run.Pc.asked] at hsome
    refine ⟨drive_books h.books hphase (fun hsome => hgo hasked (hno hsome)) hstep, fun t ht => ?_⟩
    obtain rfl : d' = t := RunPhase.driving.inj ht
    constructor
    · intro e he
      refine ⟨x.writes, .pending, ?_, by simp⟩
      simp [drive, hasks, he]
    · intro hnone hfin w hw
      simp only [drive, hasks, hnone, Option.toList_none, List.map_nil, List.append_nil] at hw
      exact hgo hasked hfin w hw
  | some e =>
    have hasks : Run.asks d d' = none := by simp [Run.asks, hasked]
    have hwrites : (x.drive x.log d d').writes = x.writes := by simp [drive, hasks]
    refine ⟨drive_books h.books hphase (by simp [hasks]) hstep, fun t ht => ?_⟩
    obtain rfl : d' = t := RunPhase.driving.inj ht
    rcases step_asked hasked hstep with ⟨ok, hok⟩ | hpc | ⟨hfin, hnone⟩
    · exact absurd hok (ha ok)
    · constructor
      · intro e' he'
        rw [hwrites]
        show ∃ ws fate, _ ∧ ∀ m ∈ (pushAll x.log (fresh d d')).marks, _
        rw [pushAll_marks]
        exact hinf.asked e' (hpc ▸ he')
      · intro hnone
        simp [hpc, hasked] at hnone
    · constructor
      · intro e' he'
        simp [hnone] at he'
      · intro _ hfin'
        exact absurd hfin hfin'

theorem stored_inStep {ctx : RunCtx} {x : Detached} {d d' : Drive} {ok : Bool} (hk : Kept x)
    (h : InStep x) (hphase : x.phase = .driving d) (hanswer : x.answer = some ok)
    (hstep : Run.step ctx d (.stored ok) = some d') : InStep (x.drive x.marked d d') := by
  obtain ⟨hnone, e, hasked⟩ := step_stored_asked hstep
  have hasks : Run.asks d d' = none := by simp [Run.asks, hasked]
  have hmarked := h.marked hk hphase hanswer hasked
  refine ⟨drive_books hmarked hphase (by simp [hasks]) hstep, fun t ht => ?_⟩
  obtain rfl : d' = t := RunPhase.driving.inj ht
  constructor
  · intro e' he'
    simp [hnone] at he'
  · intro _ _ w hw
    simp only [drive, hasks, Option.toList_none, List.map_nil, List.append_nil] at hw
    obtain ⟨ws, e', fate, hws, hfate⟩ := last_of_answer hanswer
    rw [hws, List.mem_append, List.mem_singleton] at hw
    rcases hw with hw | rfl
    · obtain ⟨before, behind, hsplit⟩ := List.append_of_mem hw
      exact h.books.settled before w (behind ++ [{ entry := e', fate }]) (by simp [hws, hsplit]) (by simp)
    · rintro rfl
      simp [Fate.answer] at hfate

/-- The last write is settled beside a driver that waits for it, or no longer does. -/
theorem settle_inStep {x y : Detached} {ws : List Write} {e : NewEntry} {fate : Fate} (h : InStep x)
    (hws : x.writes = ws ++ [{ entry := e, fate := .pending }])
    (hws' : y.writes = ws ++ [{ entry := e, fate }]) (hlog : y.log = x.log)
    (hphase : y.phase = x.phase) (hseq : x.lastSeq ≤ y.lastSeq)
    (hfate : ∀ q, fate = .stored q → x.lastSeq < q ∧ q ≤ y.lastSeq) : InStep y := by
  refine ⟨h.books.settle hws hws' hlog hphase hseq hfate, fun d hd => ?_⟩
  have hinf := h.informed d (hphase ▸ hd)
  constructor
  · intro e' he'
    obtain ⟨ws₀, fate₀, hws₀, -⟩ := hinf.asked e' he'
    have hsame := List.append_inj' (hws.symm.trans hws₀) rfl
    simp only [List.cons.injEq, Write.mk.injEq, and_true] at hsame
    obtain ⟨rfl, rfl, -⟩ := hsame
    refine ⟨ws, fate, hws', fun m hm hq => ?_⟩
    obtain ⟨w, hw, hwq⟩ := (h.books.marks m (hlog ▸ hm)).mem
    have hle := h.books.seqs w hw m.1 hwq
    exact absurd (hfate m.1 hq).1 (not_lt.2 hle)
  · intro hnone hfin
    exact absurd rfl (hinf.answered hnone hfin { entry := e, fate := .pending } (by simp [hws]))

theorem step_inStep {ctx : RunCtx} {x y : Detached} {a : Act} (hk : Kept x) (h : InStep x)
    (hstep : step ctx x a = some y) : InStep y := by
  have hsame {y : Detached} (hwrites : y.writes = x.writes) (hmarks : y.log.marks = x.log.marks)
      (hphase : y.phase = x.phase) (hseq : x.lastSeq ≤ y.lastSeq) : InStep y := by
    refine ⟨h.books.of_same hwrites hmarks ?_ hseq, fun d hd => ?_⟩
    · have hevents : y.events = x.events := by simp only [events, hphase]
      exact hevents ▸ List.prefix_rfl
    · have hinf := h.informed d (hphase ▸ hd)
      exact ⟨hwrites ▸ hmarks ▸ hinf.asked, hwrites ▸ hinf.answered⟩
  cases change_of_step hstep with
  | begin hphase =>
    obtain ⟨hnil, hmarks⟩ := hk.idle (by simp [hphase])
    have hnone : (Run.start ctx).pc.asked = none := by
      show (Run.emitInline ctx _ _ _).pc.asked = none
      rw [Run.emitInline_pc]
      rfl
    refine ⟨?_, fun d hd => ?_⟩
    · refine h.books.of_same rfl (pushAll_marks _ _) ?_ le_rfl
      simp only [events, hphase]
      exact List.nil_prefix
    · obtain rfl := RunPhase.driving.inj hd
      refine ⟨fun e he => by simp [hnone] at he, fun _ _ w hw => ?_⟩
      simp [hnil] at hw
  | stored hphase hanswer hrun => exact stored_inStep hk h hphase hanswer hrun
  | run hphase ha hrun => exact drive_inStep h hphase ha hrun
  | @commit seq ws e hseq hws =>
    refine settle_inStep h hws rfl rfl rfl hseq.le fun q hq => ?_
    obtain rfl := Fate.stored.inj hq
    exact ⟨hseq, le_rfl⟩
  | refuse hws => exact settle_inStep h hws rfl rfl rfl le_rfl (by simp)
  | foreign hseq => exact hsame rfl rfl rfl hseq.le
  | read => exact hsame rfl rfl rfl le_rfl
  | resume hlogged => exact hsame rfl rfl rfl le_rfl
  | unknown hlogged => exact h
  | leave => exact hsame rfl rfl rfl le_rfl
  | drop hphase =>
    refine ⟨h.books.of_same rfl rfl ?_ le_rfl, fun d hd => by simp at hd⟩
    simp only [events, hphase]
    exact List.nil_prefix
  | noDrop hphase => exact h
  | finished hphase hpc => exact hsame rfl rfl rfl le_rfl

/-! ## What a subscriber has -/

/-- What is known of the subscriber that named `s`: its deltas are those behind some point, and
the records up to `s` are the text before it. -/
structure Heard (x : Detached) (s : Int) (received : List Event) : Prop where
  past : s ≤ x.lastSeq
  part : received.Sublist x.events
  cut : ∃ m ≤ x.events.length, told (x.writes.filter (within s)) = spoken (x.events.take m) ∧
    received.filter Event.isAssistant = (x.events.drop m).filter Event.isAssistant

structure AllHeard (x : Detached) : Prop where
  reads : ∀ s ∈ x.reads, s ≤ x.lastSeq
  named : x.since.length = x.log.subs.length
  heard : ∀ (i : Nat) (s : Int) (sub : LogSub), x.since[i]? = some s → x.log.subs[i]? = some sub →
    sub.live = true → Heard x s sub.received

theorem filter_upTo_of_quiet {es : List Event} (h : QuietBehind es) :
    (es.upTo Event.isTerminal).filter Event.isAssistant = es.filter Event.isAssistant := by
  induction es with
  | nil => rfl
  | cons e es ih =>
    obtain ⟨hhead, htail⟩ := List.pairwise_cons.1 h
    cases he : e.isTerminal with
    | true =>
      have hnil : es.filter Event.isAssistant = [] := by
        rw [List.filter_eq_nil_iff]
        intro b hb
        simp [hhead b hb he]
      rw [List.upTo_cons_pos he, List.filter_cons, List.filter_cons, hnil, List.filter_nil]
    | false =>
      rw [List.upTo_cons_neg he, List.filter_cons, List.filter_cons, ih htail]

theorem Kept.quiet {x : Detached} (h : Kept x) : QuietBehind x.events := by
  unfold events
  split
  · next d hphase =>
    rcases h.voiced d hphase with hvoiced | hsilent
    · rcases Run.Pc.Voiced.noEnd_or_hasEnd hvoiced with hno | hend
      · exact hno.quiet
      · exact hend.quiet
    · exact hsilent.noEnd.quiet
  · exact List.Pairwise.nil

theorem Heard.split {x : Detached} {s : Int} {sub : LogSub} (hk : Kept x)
    (h : Heard x s sub.received) : Split x s sub := by
  obtain ⟨m, hm, htold, hgot⟩ := h.cut
  refine ⟨m, hm, htold, ?_⟩
  unfold forwarded
  rw [filter_upTo_of_quiet (hk.quiet.sublist h.part)]
  exact hgot

/-- Further events are heard by those who are there; the records up to `s` stay what they are. -/
theorem Heard.more {x y : Detached} {s : Int} {received es : List Event} (h : Heard x s received)
    (hevents : y.events = x.events ++ es) (hseq : x.lastSeq ≤ y.lastSeq)
    (hrecords : y.writes.filter (within s) = x.writes.filter (within s)) :
    Heard y s (received ++ es) where
  past := h.past.trans hseq
  part := hevents ▸ h.part.append (List.Sublist.refl es)
  cut := by
    obtain ⟨m, hm, htold, hgot⟩ := h.cut
    refine ⟨m, ?_, ?_, ?_⟩
    · rw [hevents, List.length_append]
      omega
    · rw [hrecords, hevents, List.take_append_of_le_length hm]
      exact htold
    · rw [hevents, List.drop_append_of_le_length hm, List.filter_append, List.filter_append, hgot]

theorem Heard.same {x y : Detached} {s : Int} {received : List Event} (h : Heard x s received)
    (hevents : y.events = x.events) (hseq : x.lastSeq ≤ y.lastSeq)
    (hrecords : y.writes.filter (within s) = x.writes.filter (within s)) : Heard y s received := by
  have hnil : y.events = x.events ++ [] := by rw [hevents, List.append_nil]
  have hmore := h.more hnil hseq hrecords
  rwa [List.append_nil] at hmore

theorem within_settled {s : Int} {e : NewEntry} {fate : Fate} (ws : List Write)
    (hfate : ∀ q, fate = .stored q → s < q) :
    (ws ++ [({ entry := e, fate } : Write)]).filter (within s) = ws.filter (within s) := by
  have hout : within s { entry := e, fate } = false := by
    cases fate with
    | stored q => simpa [within] using hfate q rfl
    | _ => rfl
  simp [List.filter_append, hout]

/-- A write that is not stored yet, or stored later than `s`, is no record up to `s`. -/
theorem AllHeard.same {x y : Detached} (h : AllHeard x) (hevents : y.events = x.events)
    (hsubs : y.log.subs = x.log.subs) (hsince : y.since = x.since) (hreads : y.reads = x.reads)
    (hseq : x.lastSeq ≤ y.lastSeq)
    (hrecords : ∀ s ≤ x.lastSeq, y.writes.filter (within s) = x.writes.filter (within s)) :
    AllHeard y where
  reads s hs := (h.reads s (hreads ▸ hs)).trans hseq
  named := by rw [hsince, hsubs, h.named]
  heard i s sub hs hsub hlive := by
    have hheard := h.heard i s sub (hsince ▸ hs) (hsubs ▸ hsub) hlive
    exact hheard.same hevents hseq (hrecords s hheard.past)

theorem AllHeard.push {x y : Detached} (h : AllHeard x) (es : List Event)
    (hevents : y.events = x.events ++ es) (hsubs : y.log.subs = x.log.subs.map (hear es))
    (hsince : y.since = x.since) (hreads : y.reads = x.reads) (hseq : x.lastSeq ≤ y.lastSeq)
    (hrecords : ∀ s ≤ x.lastSeq, y.writes.filter (within s) = x.writes.filter (within s)) :
    AllHeard y where
  reads s hs := (h.reads s (hreads ▸ hs)).trans hseq
  named := by rw [hsince, hsubs, List.length_map, h.named]
  heard i s sub hs hsub hlive := by
    rw [hsubs, List.getElem?_map] at hsub
    obtain ⟨old, hold, rfl⟩ := Option.map_eq_some_iff.1 hsub
    have hlive' : old.live = true := by
      unfold hear at hlive
      split at hlive <;> simpa using hlive
    have hheard := h.heard i s old (hsince ▸ hs) hold hlive'
    have hreceived : (hear es old).received = old.received ++ es := by simp [hear, hlive']
    rw [hreceived]
    exact hheard.more hevents hseq (hrecords s hheard.past)

/-! ## A clean resume -/

theorem told_filter_of_blank (p : Write → Bool) {ws : List Write}
    (h : ∀ w ∈ ws, p w = false → w.entry.spoken = "") : told (ws.filter p) = told ws := by
  induction ws with
  | nil => rfl
  | cons w ws ih =>
    have hrest := ih fun v hv => h v (List.mem_cons_of_mem w hv)
    have hcons (vs : List Write) : told (w :: vs) = w.entry.spoken ++ told vs := by simp [told]
    cases hp : p w with
    | true => rw [List.filter_cons_of_pos hp, hcons, hcons, hrest]
    | false =>
      rw [List.filter_cons_of_neg (by simp [hp]), hcons, h w (List.mem_cons_self) hp,
        String.empty_append, hrest]

theorem told_blank {ws : List Write} (h : ∀ w ∈ ws, w.entry.spoken = "") : told ws = "" := by
  have hnone := told_filter_of_blank (fun _ => false) fun w hw _ => h w hw
  rw [← hnone]
  simp [told]

theorem within_eq_true {s : Int} {w : Write} (h : within s w = true) :
    ∃ q, w.fate = .stored q ∧ q ≤ s := by
  unfold within at h
  split at h
  · next q hq => exact ⟨q, hq, by simpa using h⟩
  · simp at h

/-- The records up to `s` are the text up to the last mark that `s` reaches. -/
theorem told_within {x : Detached} {s : Int} (h : Books x) (hclean : Clean x s) {m : Int × Nat}
    (hm : m ∈ x.log.marks) (hs : m.1 ≤ s) (hlast : ∀ m' ∈ x.log.marks, m'.1 ≤ s → m'.1 ≤ m.1) :
    told (x.writes.filter (within s)) = spoken (x.events.take m.2) := by
  obtain ⟨before, w, behind, hws, hfate, hle, htext⟩ := h.marks m hm
  have hrising := h.rising
  rw [hws, List.pairwise_append, List.pairwise_cons] at hrising
  obtain ⟨-, ⟨hbehind, -⟩, hbefore⟩ := hrising
  have hw : within s w = true := by simp [within, hfate, hs]
  have hfront : told (before.filter (within s)) = told before := by
    refine told_filter_of_blank _ fun b hb hout => ?_
    obtain ⟨front, mid, hsplit⟩ := List.append_of_mem hb
    have hws' : x.writes = front ++ b :: (mid ++ w :: behind) := by simp [hws, hsplit]
    cases hb' : b.fate with
    | pending => exact absurd hb' (h.settled front b _ hws' (by simp))
    | refused =>
      by_contra hne
      exact hclean.kept front b _ hws' hne hb' w (by simp) m.1 hfate hs m hm rfl
    | stored p =>
      have hlt := hbefore b hb w (by simp) p m.1 hb' hfate
      simp only [within, hb', decide_eq_false_iff_not] at hout
      omega
  have hback : told (behind.filter (within s)) = "" := by
    refine told_blank fun b hb => ?_
    rw [List.mem_filter] at hb
    obtain ⟨p, hp, hps⟩ := within_eq_true hb.2
    by_contra hne
    obtain ⟨m', hm', hm'p⟩ := hclean.marked b (by simp [hws, hb.1]) hne p hp hps
    have hlt := hbehind b hb.1 m.1 p hfate hp
    have hle' := hlast m' hm' (by omega)
    omega
  rw [htext, hws, List.filter_append, List.filter_cons_of_pos hw, told_append, hfront]
  have hcons : told (w :: behind.filter (within s)) = told [w] ++ told (behind.filter (within s)) :=
    told_append [w] _
  rw [hcons, hback, String.append_empty, told_append]

theorem filter_drop_max {es : List Event} {n k : Nat}
    (h : ∀ i e, es[i]? = some e → e.isAssistant = true → i < k → i < n) :
    (es.drop (max n k)).filter Event.isAssistant = (es.drop n).filter Event.isAssistant := by
  have hsplit : es.drop n = (es.drop n).take (k - n) ++ es.drop (max n k) := by
    have hmax : max n k = n + (k - n) := by omega
    rw [hmax, ← List.drop_drop, List.take_append_drop]
  have hnil : ((es.drop n).take (k - n)).filter Event.isAssistant = [] := by
    rw [List.filter_eq_nil_iff]
    intro e he hassistant
    obtain ⟨i, hi⟩ := List.mem_iff_getElem?.1 he
    rw [List.getElem?_take] at hi
    split at hi
    · next hlt =>
      rw [List.getElem?_drop] at hi
      have hlow := h _ e hi hassistant (by omega)
      omega
    · simp at hi
  rw [hsplit, List.filter_append, hnil, List.nil_append]

/-- Where a replay begins, and that it is the last mark `s` reaches. -/
theorem replayFrom_cases {x : Detached} (h : Books x) (s : Int) :
    (∃ m ∈ x.log.marks, m.1 ≤ s ∧ x.log.replayFrom s = m.2 ∧
      ∀ m' ∈ x.log.marks, m'.1 ≤ s → m'.1 ≤ m.1 ∧ m'.2 ≤ m.2) ∨
    ((∀ m ∈ x.log.marks, s < m.1) ∧ x.log.replayFrom s = 0) := by
  unfold RunLog.replayFrom
  split
  · next m hfind =>
    obtain ⟨hseq, later, earlier, hrev, hlater⟩ := List.find?_eq_some_iff_append.1 hfind
    have hmarks : x.log.marks = earlier.reverse ++ m :: later.reverse := by
      rw [← List.reverse_reverse x.log.marks, hrev]
      simp
    have hms : m.1 ≤ s := by simpa using hseq
    refine Or.inl ⟨m, by simp [hmarks], hms, rfl, fun m' hm' hle => ?_⟩
    have hsorted := h.sorted
    rw [hmarks, List.pairwise_append] at hsorted
    rw [hmarks, List.mem_append, List.mem_cons] at hm'
    rcases hm' with hm' | rfl | hm'
    · obtain ⟨hlt, hle'⟩ := hsorted.2.2 m' hm' m (by simp)
      exact ⟨hlt.le, hle'⟩
    · exact ⟨le_rfl, le_rfl⟩
    · have hout := hlater m' (List.mem_reverse.1 hm')
      simp only [Bool.not_eq_true', decide_eq_false_iff_not] at hout
      omega
  · next hfind =>
    refine Or.inr ⟨fun m hm => ?_, rfl⟩
    have hout := List.find?_eq_none.1 hfind m (List.mem_reverse.2 hm)
    simpa using hout

/-- A subscriber whose history fits the log begins with what it does not have. -/
theorem heard_resume {x : Detached} {s : Int} (hk : Kept x) (h : InStep x) (hclean : Clean x s)
    (hpast : s ≤ x.lastSeq) :
    Heard x s ((x.log.ring.skip (x.log.replayFrom s)).filter (Event.replayed false)) := by
  rw [hk.ring.skip_eq]
  refine ⟨hpast, List.filter_sublist.trans (List.drop_sublist _ _), x.log.replayFrom s, ?_, ?_, ?_⟩
  · rcases replayFrom_cases h.books s with ⟨m, hm, -, hfrom, -⟩ | ⟨-, hfrom⟩
    · obtain ⟨before, w, behind, -, -, hle, -⟩ := h.books.marks m hm
      exact hfrom ▸ hle
    · omega
  · rcases replayFrom_cases h.books s with ⟨m, hm, hms, hfrom, hlast⟩ | ⟨hnone, hfrom⟩
    · rw [hfrom]
      exact told_within h.books hclean hm hms fun m' hm' hle => (hlast m' hm' hle).1
    · -- No record up to `s` has any text.
      rw [hfrom, List.take_zero]
      refine told_blank fun w hw => ?_
      rw [List.mem_filter] at hw
      obtain ⟨q, hq, hqs⟩ := within_eq_true hw.2
      by_contra hne
      obtain ⟨m, hm, hmq⟩ := hclean.marked w hw.1 hne q hq hqs
      have hlt := hnone m hm
      omega
  · rw [List.filter_filter]
    have hreplayed : (fun e => Event.isAssistant e && Event.replayed false e) = Event.isAssistant := by
      funext e
      cases e <;> rfl
    rw [hreplayed]
    refine filter_drop_max fun i e hi hassistant hlt => ?_
    obtain ⟨m', hm', hms', him⟩ := hclean.held i e hi hassistant (by omega)
    rcases replayFrom_cases h.books s with ⟨m, -, -, hfrom, hlast⟩ | ⟨hnone, -⟩
    · have hle := (hlast m' hm' hms').2
      omega
    · have hlt' := hnone m' hm'
      omega

/-! ## Whole runs -/

theorem filter_asks (ws : List Write) (asked : Option NewEntry) (s : Int) :
    (ws ++ asked.toList.map fun entry => ({ entry, fate := .pending } : Write)).filter (within s) =
      ws.filter (within s) := by
  cases asked with
  | none => simp
  | some e => exact within_settled ws (by simp)

theorem drive_allHeard {ctx : RunCtx} {x : Detached} {d d' : Drive} {a : Run.Act} {log : RunLog}
    (h : AllHeard x) (hphase : x.phase = .driving d) (hsubs : log.subs = x.log.subs)
    (hstep : Run.step ctx d a = some d') : AllHeard (x.drive log d d') := by
  refine h.push (fresh d d') ?_ ?_ rfl rfl le_rfl fun s _ => filter_asks _ _ s
  · simp only [events, hphase, drive]
    exact events_fresh hstep
  · show (pushAll log (fresh d d')).subs = _
    rw [pushAll_subs, hsubs]

/-- An answer to a write behind the watermark changes nothing below it. -/
theorem filter_settle {s : Int} {e : NewEntry} {fate : Fate} {ws old : List Write}
    (hold : old = ws ++ [{ entry := e, fate := .pending }]) (hfate : ∀ q, fate = .stored q → s < q) :
    (ws ++ [({ entry := e, fate } : Write)]).filter (within s) = old.filter (within s) := by
  rw [hold, within_settled ws hfate, within_settled ws (by simp)]

/-- Who resumes now has the watermark it names and the replay that goes with it; the others keep
theirs. -/
theorem resume_allHeard {x : Detached} {sinceSeq : Int} (hk : Kept x) (hin : InStep x) (h : AllHeard x)
    (hread : sinceSeq ∈ x.reads) (hclean : Clean x sinceSeq) :
    AllHeard { x with
      log := x.log.subscribeFrom sinceSeq false
      since := x.since ++ [sinceSeq] } := by
  refine ⟨h.reads, by simp [RunLog.subscribeFrom, h.named], fun i s sub hs hsub hlive => ?_⟩
  simp only [RunLog.subscribeFrom] at hsub
  have hnamed := h.named
  by_cases hi : i < x.since.length
  · rw [List.getElem?_append_left hi] at hs
    rw [List.getElem?_append_left (by omega)] at hsub
    exact (h.heard i s sub hs hsub hlive).same rfl le_rfl rfl
  · rw [List.getElem?_append_right (by omega), List.getElem?_singleton] at hs
    rw [List.getElem?_append_right (by omega), List.getElem?_singleton] at hsub
    split at hs
    · split at hsub
      · obtain rfl := Option.some.inj hs
        obtain rfl := Option.some.inj hsub
        exact (heard_resume hk hin hclean (h.reads _ hread)).same rfl le_rfl rfl
      · simp at hsub
    · simp at hs

theorem step_allHeard {ctx : RunCtx} {x y : Detached} {a : Act} (hk : Kept x) (hin : InStep x)
    (h : AllHeard x) (hhonest : Honest x a) (hfits : ¬ Tears x a) (hstep : step ctx x a = some y) :
    AllHeard y := by
  cases change_of_step hstep with
  | begin hphase =>
    refine h.push (Run.start ctx).events ?_ (pushAll_subs _ _) rfl rfl le_rfl fun _ _ => rfl
    simp [events, hphase]
  | stored hphase hanswer hrun => exact drive_allHeard h hphase (marked_subs x) hrun
  | run hphase ha hrun => exact drive_allHeard h hphase rfl hrun
  | @commit seq ws e hseq hws =>
    refine h.same rfl rfl rfl rfl hseq.le fun s hs => ?_
    refine filter_settle hws fun q hq => ?_
    obtain rfl := Fate.stored.inj hq
    exact lt_of_le_of_lt hs hseq
  | refuse hws => exact h.same rfl rfl rfl rfl le_rfl fun s hs => filter_settle hws (by simp)
  | foreign hseq => exact h.same rfl rfl rfl rfl hseq.le fun _ _ => rfl
  | read =>
    refine ⟨fun s hs => ?_, h.named, fun i s sub hs hsub hlive => ?_⟩
    · rw [List.mem_append, List.mem_singleton] at hs
      rcases hs with hs | rfl
      · exact h.reads s hs
      · exact le_rfl
    · exact (h.heard i s sub hs hsub hlive).same rfl le_rfl rfl
  | @resume s hlogged =>
    have hclean : Clean x s := by
      by_contra hno
      exact hfits ⟨hlogged, hno⟩
    exact resume_allHeard hk hin h hhonest hclean
  | unknown hlogged => exact h
  | @leave j =>
    refine ⟨h.reads, by simp [RunLog.unsubscribe, h.named], fun i s sub hs hsub hlive => ?_⟩
    have hget := RunLog.getElem?_unsubscribe hsub hlive
    exact (h.heard i s sub hs hget hlive).same rfl le_rfl rfl
  | drop hphase =>
    refine h.same ?_ rfl rfl rfl le_rfl fun _ _ => rfl
    simp [events, hphase]
  | noDrop hphase => exact h
  | finished hphase hpc => exact h.same rfl rfl rfl rfl le_rfl fun _ _ => rfl

theorem accepted_allHeard (lastSeq : Int) : AllHeard (accepted lastSeq) := by
  constructor <;> simp [accepted, RunLog.new]

/-- The history up to the seq a client names and the deltas it is handed make up the answer, in
every state of every run in which a client names what it has read and finds a log that fits. -/
theorem no_gap_no_overlap (ctx : RunCtx) (hsink : ctx.sink = .detached) (lastSeq : Int)
    (acts : List Act)
    (hhonest : Steps.AllSteps (step ctx) (fun x a _ => Honest x a) (accepted lastSeq) acts)
    (hfits : Steps.AllSteps (step ctx) (fun x a _ => ¬ Tears x a) (accepted lastSeq) acts) :
    Steps.AllStates (step ctx) NoGapNoOverlap (accepted lastSeq) acts := by
  refine Steps.allStates_of_guarded (I := fun x => Kept x ∧ InStep x ∧ AllHeard x) ?_ ?_
    ⟨accepted_kept lastSeq, accepted_inStep lastSeq, accepted_allHeard lastSeq⟩ (hhonest.and hfits)
  · rintro x a y ⟨hk, hin, hheard⟩ ⟨hr, hr'⟩ hstep
    exact ⟨step_kept hsink hk hstep, step_inStep hk hin hstep,
      step_allHeard hk hin hheard hr hr' hstep⟩
  · rintro x ⟨hk, -, hheard⟩ i s sub hs hsub hlive
    exact (hheard.heard i s sub hs hsub hlive).split hk

/-- The run has said everything, and its record has just been written. -/
def committed : List Act :=
  [.foreign 1, .begin, .run (.sent true), .run .opened, .run (.delta (.text "ok") ""),
    .run (.sent true), .run .streamEnd, .run (.sent true), .commit 2]

/-- What it has said. -/
def said : List Event :=
  [Run.lifecycle webCtx .start, .assistant "main" "r1" "ok", Run.lifecycle webCtx .end]

/-- A call with text in front of it and its result are stored and marked; the model speaks again, and the history is
read. -/
def readBetween : List Act :=
  [.foreign 1, .begin, .run (.sent true), .run .opened, .run (.delta (.text "ok") ""), .run (.sent true),
    .run (.delta (.toolCall { callId := "c1", name := some "sys", argsChunk := "" }) "g"),
    .run (.delta (.done .toolUse) "g"), .commit 2, .run (.stored true), .run (.sent true),
    .run (.toolDone .ok "12:00"), .run (.sent true), .commit 3, .run (.stored true), .run .opened,
    .run (.delta (.text "so") ""), .run (.sent true), .read]

/-- The client comes back before the model has finished. -/
def resumedBetween : List Act :=
  [.resume 3, .run (.delta (.text "!") ""), .run (.sent true), .run .streamEnd, .run (.sent true), .commit 4,
    .run (.stored true)]

/-- Its history has the text in front of the call, and it is handed the rest. -/
theorem no_gap_no_overlap_between :
    ∃ x, Steps.exec (step roundCtx) (accepted 0) (readBetween ++ resumedBetween) = some x ∧
      told (x.writes.filter (within 3)) = "ok" ∧
      x.log.subs.map forwarded = [[.assistant "main" "r1" "so", .assistant "main" "r1" "!", Run.lifecycle roundCtx .end]] ∧
      NoGapNoOverlap x := by
  have hread : (Steps.exec (step roundCtx) (accepted 0) readBetween).map
      (fun x => (x.reads, x.log.marks, x.writes.map (·.fate), x.events.length)) =
      some ([3], [(2, 2), (3, 4)], [.stored 2, .stored 3], 5) := by
    decide +kernel
  obtain ⟨x, hx, hthen⟩ := Option.map_eq_some_iff.1 hread
  simp only [Prod.mk.injEq] at hthen
  obtain ⟨hreads, hmarks, hfates, hlength⟩ := hthen
  have hend : (Steps.exec (step roundCtx) (accepted 0) (readBetween ++ resumedBetween)).map
      (fun y => (told (y.writes.filter (within 3)), y.log.subs.map forwarded)) =
      some ("ok", [[.assistant "main" "r1" "so", .assistant "main" "r1" "!", Run.lifecycle roundCtx .end]]) := by
    decide +kernel
  obtain ⟨y, hy, hfinal⟩ := Option.map_eq_some_iff.1 hend
  simp only [Prod.mk.injEq] at hfinal
  have hfate (w : Write) (hw : w ∈ x.writes) : w.fate = .stored 2 ∨ w.fate = .stored 3 := by
    have hmem : w.fate ∈ x.writes.map (·.fate) := List.mem_map_of_mem hw
    simpa [hfates] using hmem
  have hclean : Clean x 3 := by
    refine ⟨fun w hw _ q hq _ => ?_, fun before w behind hws _ hw => ?_, fun i e hi _ hlt => ?_⟩
    · rcases hfate w hw with h2 | h3
      · exact ⟨(2, 2), by simp [hmarks], Fate.stored.inj (h2.symm.trans hq)⟩
      · exact ⟨(3, 4), by simp [hmarks], Fate.stored.inj (h3.symm.trans hq)⟩
    · rcases hfate w (by simp [hws]) with h2 | h3
      · exact nomatch h2.symm.trans hw
      · exact nomatch h3.symm.trans hw
    · simp only [hlength, logCap] at hlt
      omega
  refine ⟨y, hy, hfinal.1, hfinal.2, ?_⟩
  refine Steps.allStates_iff.1 (no_gap_no_overlap roundCtx rfl 0 (readBetween ++ resumedBetween) ?_ ?_) _ y
    (List.prefix_refl _) hy
  · rw [Steps.allSteps_append hx]
    refine ⟨by simp [readBetween, Steps.AllSteps, Honest], ?_⟩
    simp [resumedBetween, Steps.AllSteps, Honest, hreads]
  · rw [Steps.allSteps_append hx]
    refine ⟨by simp [readBetween, Steps.AllSteps, Tears], ?_⟩
    simp [resumedBetween, Steps.AllSteps, Tears, hclean]

/-- The history is read when the record has been written and the run does not know yet: the
client has the answer already and is handed it once more. -/
theorem no_gap_no_overlap_fails :
    ¬ ∀ (ctx : RunCtx), ctx.sink = .detached → ∀ (lastSeq : Int) (acts : List Act),
      Steps.AllSteps (step ctx) (fun x a _ => Honest x a) (accepted lastSeq) acts →
        Steps.AllStates (step ctx) NoGapNoOverlap (accepted lastSeq) acts := by
  intro h
  have hrun : (Steps.exec (step webCtx) (accepted 0) (committed ++ [.read])).map (·.reads) =
      some [2] := by
    decide
  obtain ⟨x, hx, hreads⟩ := Option.map_eq_some_iff.1 hrun
  have hhonest : Steps.AllSteps (step webCtx) (fun x a _ => Honest x a) (accepted 0)
      ((committed ++ [.read]) ++ [.resume 2]) := by
    rw [Steps.allSteps_append hx]
    refine ⟨by simp [committed, Steps.AllSteps, Honest], fun y _ => ⟨?_, trivial⟩⟩
    show 2 ∈ x.reads
    simp [hreads]
  have hall := Steps.allStates_iff.1 (h webCtx rfl 0 _ hhonest)
  have hend : (Steps.exec (step webCtx) (accepted 0) ((committed ++ [.read]) ++ [.resume 2])).map
      (fun y => (y.since, y.log.subs, y.events, told (y.writes.filter (within 2)))) =
      some ([2], [{ live := true, received := said }], said, "ok") := by
    decide
  obtain ⟨y, hy, hfinal⟩ := Option.map_eq_some_iff.1 hend
  simp only [Prod.mk.injEq] at hfinal
  obtain ⟨hsince, hsubs, hevents, htold⟩ := hfinal
  obtain ⟨m, hm, hrecords, hgot⟩ := hall _ y (List.prefix_refl _) hy 0 2 { live := true, received := said }
    (by simp [hsince]) (by simp [hsubs]) rfl
  rw [htold, hevents] at hrecords
  rw [hevents] at hm hgot
  -- The text is before no point behind which it is as well.
  have hcuts : ∀ m ≤ 3, spoken (said.take m) = "ok" →
      ¬ (forwarded { live := true, received := said }).filter Event.isAssistant =
        (said.drop m).filter Event.isAssistant := by
    decide
  exact hcuts m hm hrecords.symm hgot

end Detached

end OhMyClaw
