import OhMyClaw.Server.RunLegs

/-!
# The updates of a tool

A tool hands its updates to a channel that has no bound; a task of its own, the pump, takes them
out one by one and hands them to the run's sink.  The pump is aborted when the invocation
returns, so it may lose what it still holds, and a pump that is just being polled may go on for
a while.  A run that is cut short instead drops the invocation and leaves the pump behind.

`Watch` follows one run from outside: the brackets of its tool calls, and the updates emitted
in them that the sink has not been handed yet.

    bracketed_of_orderly       what has to hold of every step for the brackets to be kept
-/

namespace OhMyClaw

namespace ToolPump

open Run (Drive Pc AfterSend AfterPersist)

/-! ## The brackets of the tool calls -/

/-- Between calls, within the bracket of one, or out of order.  `due` are the updates emitted
before the invocation returned, `late` those emitted after it, both without what was sent. -/
inductive Watch where
  | clear
  | inside (callId : String) (due late : List String)
  | broken
deriving DecidableEq, Repr

/-- The sink is handed an event. -/
def Watch.push (w : Watch) (ev : Event) : Watch :=
  match ev, w with
  | .tool _ _ callId (.start _ _), .clear => .inside callId [] []
  | .tool _ _ callId (.update chunk), .inside c (u :: due) late =>
    if callId = c ∧ chunk = u then .inside c due late else .broken
  | .tool _ _ callId (.update chunk), .inside c [] (u :: late) =>
    if callId = c ∧ chunk = u then .inside c [] late else .broken
  | .tool _ _ callId (.end _), .inside c [] _ => if callId = c then .clear else .broken
  | .tool _ _ _ _, _ => .broken
  | .lifecycle _ _ phase, .inside _ _ _ => if phase.isTerminal then .broken else w
  | _, w => w

inductive Moment where
  | pushed (ev : Event)
  | emitted (callId chunk : String)
  /-- Emitted by a task the tool left behind when its invocation returned. -/
  | late (callId chunk : String)
deriving DecidableEq, Repr

def Watch.see (w : Watch) : Moment → Watch
  | .pushed ev => w.push ev
  | .emitted callId chunk =>
    match w with
    | .inside c due late => if callId = c then .inside c (due ++ [chunk]) late else .broken
    | _ => .broken
  | .late callId chunk =>
    match w with
    | .inside c due late => if callId = c then .inside c due (late ++ [chunk]) else w
    | _ => w

def watchOf (history : List Moment) : Watch := history.foldl Watch.see .clear

theorem watchOf_append (h h' : List Moment) : watchOf (h ++ h') = h'.foldl Watch.see (watchOf h) :=
  List.foldl_append

/-! ## Pumps -/

structure Pump where
  callId : String
  queue : List String
  /-- The update taken out of the channel and not yet handed to the sink. -/
  hand : Option String
  aborted : Bool
deriving DecidableEq, Repr

def Pump.new (callId : String) : Pump := { callId, queue := [], hand := none, aborted := false }

def Pump.emit (p : Pump) (chunk : String) : Pump := { p with queue := p.queue ++ [chunk] }

def Pump.take (p : Pump) : Option Pump :=
  match p.hand, p.queue with
  | none, chunk :: queue => some { p with queue, hand := some chunk }
  | _, _ => none

/-- Nothing emitted is still on its way. -/
structure Pump.Idle (p : Pump) : Prop where
  queue : p.queue = []
  hand : p.hand = none

def Pump.isIdle (p : Pump) : Bool := p.queue.isEmpty && p.hand.isNone

/-- Whether the task may be over: an aborted one may at any time, one that was left behind drains
its channel first. -/
def Pump.mayEnd (p : Pump) : Bool := p.aborted || p.isIdle

/-! ## A run and its pumps -/

structure Piped where
  drive : Drive
  /-- The pump of the invocation under way. -/
  current : Option Pump
  /-- The pumps of invocations that are over. -/
  old : List Pump
  history : List Moment
deriving DecidableEq, Repr

inductive Act where
  /-- The driver, and what else a run is told. -/
  | run (a : Run.Act)
  /-- The tool emits an update. -/
  | emit (chunk : String)
  /-- The pump takes an update out of the channel. -/
  | take
  /-- The pump hands its update to the sink. -/
  | land (ok : Bool)
  /-- The same for a pump of an invocation that is over. -/
  | lateEmit (i : Nat) (chunk : String)
  | lateTake (i : Nat)
  | lateLand (i : Nat) (ok : Bool)
  /-- The task of an old pump is over. -/
  | gone (i : Nat)
deriving DecidableEq, Repr

def start (ctx : RunCtx) : Piped :=
  { drive := Run.start ctx, current := none, old := []
    history := (Run.start ctx).sent.map fun e => .pushed e.1 }

/-- The pump at work: a new one for an invocation that begins, none where no tool runs. -/
def currentAfter (x : Piped) (pc : Pc) : Option Pump :=
  match pc with
  | .toolRunning call => some (x.current.getD (Pump.new call.id))
  | _ => none

/-- The pump of an invocation that is over joins the old ones; only a return aborts it. -/
def oldAfter (x : Piped) (a : Run.Act) (pc : Pc) : List Pump :=
  match pc, x.current with
  | .toolRunning _, _ => x.old
  | _, none => x.old
  | _, some p =>
    x.old ++ [{ p with aborted := match a with
      | .toolDone _ _ => true
      | _ => false }]

/-- The driver goes on to `d`. -/
def goOn (x : Piped) (a : Run.Act) (d : Drive) : Piped :=
  { drive := d
    current := currentAfter x d.pc
    old := oldAfter x a d.pc
    history := x.history ++ (d.sent.drop x.drive.sent.length).map fun e => .pushed e.1 }

/-- A pump hands an update to the sink. -/
def hand (ctx : RunCtx) (x : Piped) (p : Pump) (chunk : String) (ok : Bool) : Option Piped :=
  (Run.step ctx x.drive (.side (.update p.callId chunk) ok)).map fun d =>
    { x with
      drive := d
      history := x.history ++ (d.sent.drop x.drive.sent.length).map fun e => .pushed e.1 }

def step (ctx : RunCtx) (x : Piped) (a : Act) : Option Piped :=
  match a with
  | .run (.side (.update _ _) _) => none
  | .run a => (Run.step ctx x.drive a).map fun d => goOn x a d
  | .emit chunk =>
    x.current.map fun p =>
      { x with current := some (p.emit chunk), history := x.history ++ [.emitted p.callId chunk] }
  | .take => (x.current.bind Pump.take).map fun p => { x with current := some p }
  | .land ok =>
    match x.current with
    | some p =>
      match p.hand with
      | some chunk => hand ctx { x with current := some { p with hand := none } } p chunk ok
      | none => none
    | none => none
  | .lateEmit i chunk =>
    x.old[i]?.map fun p =>
      { x with old := x.old.set i (p.emit chunk), history := x.history ++ [.late p.callId chunk] }
  | .lateTake i => (x.old[i]?.bind Pump.take).map fun p => { x with old := x.old.set i p }
  | .lateLand i ok =>
    match x.old[i]? with
    | some p =>
      match p.hand with
      | some chunk => hand ctx { x with old := x.old.set i { p with hand := none } } p chunk ok
      | none => none
    | none => none
  | .gone i =>
    match x.old[i]? with
    | some p => if p.mayEnd then some { x with old := x.old.eraseIdx i } else none
    | none => none

/-- Every start is followed by its end before the next start and before the run's own end, with
every update emitted before the invocation returned in between, once and in order, and none
behind it. -/
structure Bracketed (x : Piped) : Prop where
  unbroken : watchOf x.history ≠ .broken
  closed : ∀ o, x.drive.pc = .done o → watchOf x.history = .clear

/-! ## Orderly steps -/

/-- Whether the sink has been handed a start and not yet its end. -/
def bracketOpen (sink : SinkKind) : Pc → Bool
  | .sending _ (.exec _) => sink = .detached
  | .sending _ (.executed _ _) => sink ≠ .detached
  | .toolRunning _ => true
  | _ => false

/-- The announced call finds an executor; an invocation returns once its updates have been
handed to the sink, and leaves nobody behind who emits more; and the run is not cut within a
bracket. -/
def orderly (ctx : RunCtx) (x : Piped) (a : Act) : Bool :=
  match a with
  | .run (.sent _) =>
    match x.drive.pc with
    | .sending _ (.exec _) => ctx.tools
    | _ => true
  | .run (.toolDone _ _) => x.current.all Pump.isIdle
  | .run .runTimeout => !bracketOpen ctx.sink x.drive.pc
  | .run .panic => !bracketOpen ctx.sink x.drive.pc
  | .lateEmit _ _ => false
  | _ => true

/-! ## Where the watch stands -/

section Legs

variable {ctx : RunCtx}

/-- The watch before and after the event of a send. -/
def before : AfterSend → Watch
  | .executed call _ => .inside call.id [] []
  | _ => .clear

def after : AfterSend → Watch
  | .exec call => .inside call.id [] []
  | _ => .clear

/-- The watch at a program counter, when no update is on its way. -/
def PcWatch (sink : SinkKind) (w : Watch) : Pc → Prop
  | .sending ev k =>
    if sink = .detached then w = after k else w = before k ∧ (before k).push ev = after k
  | .toolRunning call => w = .inside call.id [] []
  | _ => w = .clear

theorem pcWatch_sending {sink : SinkKind} {w : Watch} {ev : Event} {k : AfterSend} :
    PcWatch sink w (.sending ev k) ↔
      if sink = .detached then w = after k else w = before k ∧ (before k).push ev = after k := Iff.rfl

def pushAll (w : Watch) (es : List (Event × Bool)) : Watch := es.foldl (fun w e => w.push e.1) w

/-- A leg from where the watch was `w` and `sent` was sent leads to a state where it stands right. -/
def Leads (ctx : RunCtx) (w : Watch) (sent : List (Event × Bool)) (t : Drive) : Prop :=
  ∃ new, t.sent = sent ++ new ∧ PcWatch ctx.sink (pushAll w new) t.pc

theorem leads_here {w : Watch} {t : Drive} (h : PcWatch ctx.sink w t.pc) : Leads ctx w t.sent t :=
  ⟨[], (List.append_nil _).symm, h⟩

theorem emitInline_leads {ev : Event} {k : AfterSend} {s : Drive} (hpush : (before k).push ev = after k) :
    Leads ctx (before k) s.sent (Run.emitInline ctx ev k s) := by
  by_cases hsink : ctx.sink = .detached
  · refine ⟨[(ev, true)], ?_, ?_⟩
    · simp [Run.emitInline, hsink]
    · rw [Run.emitInline_pc, pcWatch_sending, if_pos hsink]
      exact hpush
  · refine ⟨[], ?_, ?_⟩
    · unfold Run.emitInline
      split
      · next h => exact absurd h hsink
      · exact (List.append_nil _).symm
    · rw [Run.emitInline_pc, pcWatch_sending, if_neg hsink]
      exact ⟨rfl, hpush⟩

theorem emitError_leads (kind : RunErrorKind) (msg : String) (o : RunOutcome) (s : Drive) :
    Leads ctx .clear s.sent (Run.emitError ctx kind msg (.returns o) s) :=
  emitInline_leads (k := .returns o) rfl

theorem loopCheck_leads (call : ToolCallSpec) (s : Drive) :
    Leads ctx .clear s.sent (Run.loopCheck ctx call s) := by
  simp only [Run.loopCheck]
  split
  · exact emitError_leads _ _ _ _
  · split
    · exact emitError_leads _ _ _ _
    · exact emitInline_leads (k := .exec call) rfl

theorem afterPersist_leads (k : AfterPersist) (s : Drive) :
    Leads ctx .clear s.sent (Run.afterPersist ctx k s) := by
  cases k with
  | finish => exact leads_here (t := { s with pc := _ }) rfl
  | loopCheck call => exact loopCheck_leads call s
  | feedBack call output => exact leads_here (t := Run.feedBack ctx call output s) rfl

theorem persist_leads (e : NewEntry) (k : AfterPersist) (s : Drive) :
    Leads ctx .clear s.sent (Run.persist ctx e k s) := by
  unfold Run.persist
  split
  · exact afterPersist_leads k s
  · exact leads_here (t := { s with pc := _ }) rfl

/-- Behind a send; a call that was announced needs its executor. -/
theorem afterSend_leads {k : AfterSend} (hexec : ∀ call, k = .exec call → ctx.tools = true) (ok : Bool)
    (s : Drive) : Leads ctx (after k) s.sent (Run.afterSend ctx k ok s) := by
  cases k with
  | started =>
    simp only [Run.afterSend]
    split
    · exact leads_here (t := Run.beginTurn ctx s) rfl
    · exact leads_here (t := { s with pc := _ }) rfl
  | turn tc => exact leads_here (t := { s with pc := _ }) rfl
  | completed => exact persist_leads _ _ s
  | returns o => exact leads_here (t := { s with pc := _ }) rfl
  | watchdog => exact emitError_leads _ _ _ s
  | exec call =>
    rw [Run.afterSend_exec (hexec call rfl)]
    exact leads_here (t := { s with pumps := true, pc := .toolRunning call }) rfl
  | executed call output => exact persist_leads _ _ s

/-- An effect asks for no event of a tool. -/
theorem push_effectEvent {e : Effect} {ev : Event} (h : Run.effectEvent ctx e = some ev) :
    Watch.clear.push ev = .clear := by
  cases e <;> simp [Run.effectEvent] at h <;> subst h <;> rfl

/-- A send that belongs to no tool call. -/
def Plain (k : AfterSend) : Prop := before k = .clear ∧ after k = .clear

theorem advance_leads {ev : StepEvent} {k : AfterSend} (hk : Plain k) (s : Drive) :
    Leads ctx .clear s.sent (Run.advance ctx ev k s) := by
  have hexec : ∀ call, k = .exec call → ctx.tools = true := by
    rintro call rfl
    exact absurd hk.2 (by simp [after])
  simp only [Run.advance, Run.executeEffects]
  split
  · next ev' hev =>
    obtain ⟨e, -, he⟩ := List.exists_of_findSome?_eq_some hev
    have hpush : (before k).push ev' = after k := by
      rw [hk.1, hk.2]
      exact push_effectEvent he
    rw [← hk.1]
    exact emitInline_leads hpush
  · have hafter (s : Drive) : Leads ctx (after _) s.sent (Run.afterSend ctx _ true s) := afterSend_leads hexec true s
    rw [hk.2] at hafter
    exact hafter _

theorem onDelta_leads {tc : Run.PartialCall} (d : Delta) (genCallId : String) {s : Drive}
    (hpc : s.pc = .streaming tc) : Leads ctx .clear s.sent (Run.onDelta ctx tc d genCallId s) := by
  have hstay (t : Drive) (hsent : t.sent = s.sent) (htpc : t.pc = s.pc) : Leads ctx .clear s.sent t := by
    rw [← hsent]
    apply leads_here
    rw [htpc, hpc]
    rfl
  cases d with
  | text t => exact advance_leads ⟨rfl, rfl⟩ s
  | reasoning r => exact emitInline_leads (k := .turn tc) rfl
  | toolCall d => exact leads_here (t := { s with pc := _ }) rfl
  | usage u =>
    simp only [Run.onDelta]
    split
    · exact hstay _ rfl rfl
    · exact hstay _ rfl rfl
  | done reason =>
    cases reason with
    | stop => exact advance_leads ⟨rfl, rfl⟩ s
    | toolUse => exact persist_leads _ _ _
    | length =>
      simp only [Run.onDelta, Run.truncatedTurn]
      split
      · exact emitError_leads _ _ _ _
      · split
        · exact leads_here (t := Run.beginTurn ctx _) rfl
        · exact leads_here (t := Run.beginTurn ctx _) rfl

/-! ## A leg of the driver -/

/-- Requests to the user are no matter of the brackets. -/
theorem push_side {e : Run.SideEvent} (he : ∀ callId chunk, e ≠ .update callId chunk) (w : Watch) :
    w.push (e.toEvent ctx) = w := by
  cases e with
  | update callId chunk => exact absurd rfl (he callId chunk)
  | approval id summary command => cases w <;> rfl
  | userInput id prompt => cases w <;> rfl

theorem pcWatch_atModel {w : Watch} {pc : Pc} (h : PcWatch ctx.sink w pc) (hpc : pc.AtModel) :
    w = .clear := by
  rcases hpc with rfl | ⟨tc, rfl⟩
  · exact h
  · exact h

/-- Outside the brackets the watch is clear. -/
theorem pcWatch_closed {w : Watch} {pc : Pc} (h : PcWatch ctx.sink w pc)
    (hclosed : bracketOpen ctx.sink pc = false) : w = .clear := by
  cases pc with
  | sending ev k =>
    rw [pcWatch_sending] at h
    by_cases hsink : ctx.sink = .detached
    · rw [if_pos hsink] at h
      cases k with
      | exec call => simp [bracketOpen, hsink] at hclosed
      | _ => exact h
    · rw [if_neg hsink] at h
      cases k with
      | executed call output => simp [bracketOpen, hsink] at hclosed
      | _ => exact h.1
  | toolRunning call => simp [bracketOpen] at hclosed
  | _ => exact h

/-- One leg of the driver, from a state where no update is on its way. -/
theorem leg_leads {w : Watch} {s t : Drive} {a : Run.Act} (h : PcWatch ctx.sink w s.pc)
    (hstep : Run.step ctx s a = some t)
    (hexec : ∀ ok, a = .sent ok → ∀ ev call, s.pc = .sending ev (.exec call) → ctx.tools = true)
    (hcut : a = .runTimeout ∨ a = .panic → bracketOpen ctx.sink s.pc = false)
    (hside : ∀ callId chunk ok, a ≠ .side (.update callId chunk) ok) : Leads ctx w s.sent t := by
  cases Run.leg_of_step hstep with
  | @sent ev k ok hpc hok =>
    rw [hpc, pcWatch_sending] at h
    have hexec' : ∀ call, k = .exec call → ctx.tools = true := by
      rintro call rfl
      exact hexec ok rfl ev call hpc
    by_cases hsink : ctx.sink = .detached
    · rw [if_pos hsink] at h
      simp only [Run.onSent]
      rw [if_pos hsink, h]
      exact afterSend_leads hexec' ok _
    · rw [if_neg hsink] at h
      simp only [Run.onSent]
      rw [if_neg hsink, h.1]
      obtain ⟨new, hsent, hwatch⟩ := afterSend_leads hexec' ok
        { s with sent := s.sent ++ [(ev, ok)], cancelled := s.cancelled || !ok }
      refine ⟨(ev, ok) :: new, ?_, ?_⟩
      · rw [hsent]
        simp
      · rw [← h.2] at hwatch
        exact hwatch
  | opened hpc =>
    obtain rfl := pcWatch_atModel h (Or.inl hpc)
    exact leads_here (t := { s with pc := _ }) rfl
  | openFailed hpc =>
    obtain rfl := pcWatch_atModel h (Or.inl hpc)
    exact advance_leads ⟨rfl, rfl⟩ _
  | closed hpc hsink =>
    obtain rfl := pcWatch_atModel h hpc
    exact advance_leads ⟨rfl, rfl⟩ _
  | delta hpc =>
    obtain rfl := pcWatch_atModel h (Or.inr ⟨_, hpc⟩)
    exact onDelta_leads _ _ hpc
  | streamErr hpc =>
    obtain rfl := pcWatch_atModel h (Or.inr ⟨_, hpc⟩)
    exact advance_leads ⟨rfl, rfl⟩ _
  | streamEnd hpc =>
    obtain rfl := pcWatch_atModel h (Or.inr ⟨_, hpc⟩)
    exact advance_leads ⟨rfl, rfl⟩ _
  | cancelled hpc hcancel =>
    obtain rfl := pcWatch_atModel h (Or.inr ⟨_, hpc⟩)
    exact advance_leads ⟨rfl, rfl⟩ _
  | idle hpc =>
    obtain rfl := pcWatch_atModel h (Or.inr ⟨_, hpc⟩)
    exact advance_leads ⟨rfl, rfl⟩ _
  | @stored e k ok hpc =>
    rw [hpc] at h
    obtain rfl : w = .clear := h
    split
    · exact afterPersist_leads k { s with persisted := s.persisted ++ [e] }
    · exact afterPersist_leads k s
  | @toolDone call status content hpc =>
    rw [hpc] at h
    obtain rfl : w = .inside call.id [] [] := h
    exact emitInline_leads (k := .executed call content) (by simp [before, after, Watch.push])
  | @side e ok hpumps hok =>
    refine ⟨[(e.toEvent ctx, ok)], rfl, ?_⟩
    have hsame : w.push (e.toEvent ctx) = w := by
      apply push_side
      rintro callId chunk rfl
      exact hside callId chunk ok rfl
    show PcWatch ctx.sink (w.push (e.toEvent ctx)) s.pc
    rw [hsame]
    exact h
  | abort => exact leads_here (t := { s with cancelled := true }) h
  | runTimeout ht hfirst hpc =>
    obtain rfl := pcWatch_closed h (hcut (Or.inl rfl))
    exact emitError_leads _ _ _ _
  | panic hpc =>
    obtain rfl := pcWatch_closed h (hcut (Or.inr rfl))
    exact leads_here (t := { s with stopped := _, pc := _ }) rfl

/-! ## Runs of orderly steps -/

/-- Between calls the watch stands where the driver does; within one, what is due is what the
pump holds; and old pumps hold nothing. -/
structure Stands (ctx : RunCtx) (x : Piped) : Prop where
  old : ∀ p ∈ x.old, p.Idle
  between : x.current = none →
    (∀ call, x.drive.pc ≠ .toolRunning call) ∧ PcWatch ctx.sink (watchOf x.history) x.drive.pc
  within : ∀ p, x.current = some p → ∃ call, x.drive.pc = .toolRunning call ∧ p.callId = call.id ∧
    watchOf x.history = .inside call.id (p.hand.toList ++ p.queue) []

theorem idle_of_isIdle {p : Pump} (h : p.isIdle = true) : p.Idle := by
  simp only [Pump.isIdle, Bool.and_eq_true, List.isEmpty_iff, Option.isNone_iff_eq_none] at h
  exact ⟨h.1, h.2⟩

theorem Pump.Idle.take {p : Pump} (h : p.Idle) : p.take = none := by
  unfold Pump.take
  rw [h.hand, h.queue]

/-- What a leg sends goes into the history. -/
theorem watchOf_sent (h : List Moment) (sent new : List (Event × Bool)) :
    watchOf (h ++ ((sent ++ new).drop sent.length).map fun e => .pushed e.1) = pushAll (watchOf h) new := by
  rw [List.drop_left, watchOf_append, List.foldl_map]
  rfl

/-- The driver goes on, with no invocation under way before. -/
theorem goOn_stands {x : Piped} {a : Run.Act} {d : Drive} (hold : ∀ p ∈ oldAfter x a d.pc, p.Idle)
    (hcurrent : ∀ call, d.pc = .toolRunning call → x.current = none)
    (hleads : Leads ctx (watchOf x.history) x.drive.sent d) : Stands ctx (goOn x a d) := by
  obtain ⟨new, hsent, hwatch⟩ := hleads
  have hhistory : watchOf (goOn x a d).history = pushAll (watchOf x.history) new := by
    unfold goOn
    rw [hsent]
    exact watchOf_sent _ _ _
  refine ⟨hold, fun hnone => ?_, fun p hp => ?_⟩
  · refine ⟨fun call hpc => ?_, ?_⟩
    · have hpc' : d.pc = .toolRunning call := hpc
      simp [goOn, currentAfter, hpc'] at hnone
    · rw [hhistory]
      exact hwatch
  · cases hpc : d.pc with
    | toolRunning call =>
      have hp' : currentAfter x d.pc = some p := hp
      simp only [currentAfter, hpc, hcurrent call hpc, Option.getD_none, Option.some.injEq] at hp'
      subst hp'
      rw [hpc] at hwatch
      refine ⟨call, hpc, rfl, ?_⟩
      rw [hhistory]
      exact hwatch
    | _ => simp [goOn, currentAfter, hpc] at hp

theorem run_stands {x : Piped} {a : Run.Act} {d : Drive} (h : Stands ctx x)
    (horderly : orderly ctx x (.run a) = true) (hside : ∀ callId chunk ok, a ≠ .side (.update callId chunk) ok)
    (hstep : Run.step ctx x.drive a = some d) : Stands ctx (goOn x a d) := by
  have hexec : ∀ ok, a = .sent ok → ∀ ev call, x.drive.pc = .sending ev (.exec call) → ctx.tools = true := by
    rintro ok rfl ev call hpc
    simpa [orderly, hpc] using horderly
  have hcut : a = .runTimeout ∨ a = .panic → bracketOpen ctx.sink x.drive.pc = false := by
    rintro (rfl | rfl)
    · simpa [orderly] using horderly
    · simpa [orderly] using horderly
  cases hcurrent : x.current with
  | none =>
    apply goOn_stands _ (fun _ _ => hcurrent) (leg_leads (h.between hcurrent).2 hstep hexec hcut hside)
    have hsame : oldAfter x a d.pc = x.old := by
      unfold oldAfter
      rw [hcurrent]
      cases d.pc <;> rfl
    rw [hsame]
    exact h.old
  | some p =>
    obtain ⟨call, hpc, hcall, hwatch⟩ := h.within p hcurrent
    -- Beside the driver something may happen; the invocation itself only returns.
    have hbeside (hdpc : d.pc = .toolRunning call)
        (hsame : ∃ new, d.sent = x.drive.sent ++ new ∧ pushAll (watchOf x.history) new = watchOf x.history) :
        Stands ctx (goOn x a d) := by
      obtain ⟨new, hsent, hpush⟩ := hsame
      refine ⟨?_, fun hnone => ?_, fun q hq => ?_⟩
      · simp only [goOn, oldAfter, hdpc]
        exact h.old
      · simp [goOn, currentAfter, hdpc] at hnone
      · have hq' : currentAfter x d.pc = some q := hq
        simp only [currentAfter, hdpc, hcurrent, Option.getD_some, Option.some.injEq] at hq'
        subst hq'
        refine ⟨call, hdpc, hcall, ?_⟩
        unfold goOn
        rw [hsent]
        show watchOf (x.history ++ _) = _
        rw [watchOf_sent, hpush]
        exact hwatch
    cases Run.leg_of_step hstep with
    | @toolDone call' status content hpc' =>
      obtain ⟨hqueue, hhand⟩ : p.Idle := by
        apply idle_of_isIdle
        simpa [orderly, hcurrent] using horderly
      have hpcWatch : PcWatch ctx.sink (watchOf x.history) x.drive.pc := by
        rw [hpc, hwatch, hqueue, hhand]
        rfl
      apply goOn_stands _ _ (leg_leads hpcWatch hstep hexec hcut hside)
      · intro q hq
        rw [Run.emitInline_pc] at hq
        simp only [oldAfter, hcurrent, List.mem_append, List.mem_singleton] at hq
        rcases hq with hq | rfl
        · exact h.old q hq
        · exact ⟨hqueue, hhand⟩
      · simp
    | @side e ok hpumps hok =>
      apply hbeside hpc
      refine ⟨[(e.toEvent ctx, ok)], rfl, ?_⟩
      apply push_side
      rintro callId chunk rfl
      exact hside callId chunk ok rfl
    | abort => exact hbeside hpc ⟨[], (List.append_nil _).symm, rfl⟩
    | runTimeout ht hfirst hwaits =>
      have hopen := hcut (Or.inl rfl)
      rw [hpc] at hopen
      simp [bracketOpen] at hopen
    | panic hpanic =>
      have hopen := hcut (Or.inr rfl)
      rw [hpc] at hopen
      simp [bracketOpen] at hopen
    | sent hpc' hok => simp [hpc] at hpc'
    | opened hpc' => simp [hpc] at hpc'
    | openFailed hpc' => simp [hpc] at hpc'
    | closed hpc' hsink => simp [hpc, Pc.AtModel] at hpc'
    | delta hpc' => simp [hpc] at hpc'
    | streamErr hpc' => simp [hpc] at hpc'
    | streamEnd hpc' => simp [hpc] at hpc'
    | cancelled hpc' hcancel => simp [hpc] at hpc'
    | idle hpc' => simp [hpc] at hpc'
    | stored hpc' => simp [hpc] at hpc'

/-- An update the pump hands over is the next one due. -/
theorem land_stands {x y : Piped} {p : Pump} {chunk : String} {ok : Bool} (h : Stands ctx x)
    (hcurrent : x.current = some p) (hhand : p.hand = some chunk)
    (hstep : hand ctx { x with current := some { p with hand := none } } p chunk ok = some y) :
    Stands ctx y := by
  obtain ⟨call, hpc, hcall, hwatch⟩ := h.within p hcurrent
  unfold hand at hstep
  obtain ⟨d, hd, rfl⟩ := Option.map_eq_some_iff.1 hstep
  cases Run.leg_of_step hd with
  | side hpumps hok =>
    refine ⟨h.old, fun hnone => by simp at hnone, fun q hq => ?_⟩
    obtain rfl := Option.some.inj hq
    refine ⟨call, hpc, hcall, ?_⟩
    show watchOf (x.history ++ _) = _
    rw [watchOf_sent, hwatch, hhand]
    simp [pushAll, Run.SideEvent.toEvent, Watch.push, hcall]

/-- Every orderly step leaves the watch where the driver stands. -/
theorem step_stands {x y : Piped} {a : Act} (h : Stands ctx x) (horderly : orderly ctx x a = true)
    (hstep : step ctx x a = some y) : Stands ctx y := by
  cases a with
  | run a =>
    have hside : ∀ callId chunk ok, a ≠ .side (.update callId chunk) ok := by
      rintro callId chunk ok rfl
      simp [step] at hstep
    have hgoes : (Run.step ctx x.drive a).map (fun d => goOn x a d) = some y := by
      cases a with
      | side e ok =>
        cases e with
        | update callId chunk => exact absurd rfl (hside callId chunk ok)
        | _ => exact hstep
      | _ => exact hstep
    obtain ⟨d, hd, rfl⟩ := Option.map_eq_some_iff.1 hgoes
    exact run_stands h horderly hside hd
  | emit chunk =>
    obtain ⟨p, hp, rfl⟩ := Option.map_eq_some_iff.1 hstep
    obtain ⟨call, hpc, hcall, hwatch⟩ := h.within p hp
    refine ⟨h.old, fun hnone => by simp at hnone, fun q hq => ?_⟩
    obtain rfl := Option.some.inj hq
    refine ⟨call, hpc, hcall, ?_⟩
    show watchOf (x.history ++ [.emitted p.callId chunk]) = _
    rw [watchOf_append, hwatch]
    simp [Watch.see, Pump.emit, hcall]
  | take =>
    obtain ⟨q, hq, rfl⟩ := Option.map_eq_some_iff.1 hstep
    obtain ⟨p, hp, htake⟩ := Option.bind_eq_some_iff.1 hq
    obtain ⟨call, hpc, hcall, hwatch⟩ := h.within p hp
    refine ⟨h.old, fun hnone => by simp at hnone, fun r hr => ?_⟩
    obtain rfl := Option.some.inj hr
    unfold Pump.take at htake
    split at htake
    · next chunk queue hhand hqueue =>
      obtain rfl := Option.some.inj htake
      refine ⟨call, hpc, hcall, ?_⟩
      rw [hwatch, hhand, hqueue]
      rfl
    · simp at htake
  | land ok =>
    simp only [step] at hstep
    split at hstep
    · next p hp =>
      split at hstep
      · next chunk hhand => exact land_stands h hp hhand hstep
      · simp at hstep
    · simp at hstep
  | lateEmit i chunk => simp [orderly] at horderly
  | lateTake i =>
    obtain ⟨q, hq, -⟩ := Option.map_eq_some_iff.1 hstep
    obtain ⟨p, hp, htake⟩ := Option.bind_eq_some_iff.1 hq
    rw [(h.old p (List.mem_of_getElem? hp)).take] at htake
    simp at htake
  | lateLand i ok =>
    simp only [step] at hstep
    split at hstep
    · next p hp =>
      rw [(h.old p (List.mem_of_getElem? hp)).hand] at hstep
      simp at hstep
    · simp at hstep
  | gone i =>
    simp only [step] at hstep
    split at hstep
    · next p hp =>
      split at hstep
      · obtain rfl := Option.some.inj hstep
        exact ⟨fun q hq => h.old q (List.mem_of_mem_eraseIdx hq), h.between, h.within⟩
      · simp at hstep
    · simp at hstep

theorem start_stands : Stands ctx (start ctx) := by
  have hleads : Leads ctx .clear [] (Run.start ctx) := emitInline_leads (k := .started) rfl
  obtain ⟨new, hsent, hwatch⟩ := hleads
  refine ⟨by simp [start], fun _ => ⟨?_, ?_⟩, fun p hp => by simp [start] at hp⟩
  · intro call hpc
    have hsends : (Run.start ctx).pc = .sending (Run.lifecycle ctx .start) .started := Run.emitInline_pc _ _ _ _
    have hpc' : (Run.start ctx).pc = .toolRunning call := hpc
    rw [hsends] at hpc'
    simp at hpc'
  · have hhistory : watchOf (start ctx).history = pushAll .clear new := by
      show watchOf ((Run.start ctx).sent.map fun e => .pushed e.1) = _
      rw [hsent, List.nil_append]
      exact List.foldl_map
    rw [hhistory]
    exact hwatch

theorem Stands.bracketed {x : Piped} (h : Stands ctx x) : Bracketed x := by
  cases hcurrent : x.current with
  | none =>
    obtain ⟨-, hwatch⟩ := h.between hcurrent
    constructor
    · cases hpc : x.drive.pc with
      | sending ev k =>
        rw [hpc, pcWatch_sending] at hwatch
        split at hwatch
        · rw [hwatch]
          cases k <;> simp [after]
        · rw [hwatch.1]
          cases k <;> simp [before]
      | toolRunning call =>
        rw [hpc] at hwatch
        rw [show watchOf x.history = _ from hwatch]
        simp
      | _ =>
        rw [hpc] at hwatch
        rw [show watchOf x.history = _ from hwatch]
        simp
    · intro o hpc
      rw [hpc] at hwatch
      exact hwatch
  | some p =>
    obtain ⟨call, hpc, -, hwatch⟩ := h.within p hcurrent
    constructor
    · rw [hwatch]
      simp
    · intro o hdone
      rw [hpc] at hdone
      simp at hdone

end Legs

/-- A run whose steps are all orderly keeps the brackets of its tool calls, with all updates in
them, in every state it reaches. -/
theorem bracketed_of_orderly (ctx : RunCtx) (acts : List Act)
    (horderly : Steps.AllSteps (step ctx) (fun x a _ => orderly ctx x a = true) (start ctx) acts) :
    Steps.AllStates (step ctx) Bracketed (start ctx) acts :=
  Steps.allStates_of_guarded (R := fun x a _ => orderly ctx x a = true)
    (fun _ _ _ h ho hs => step_stands h ho hs) (fun _ h => h.bracketed) start_stands horderly

/-- A run with one tool call that emits an update. -/
def callCtx : RunCtx :=
  { sessionId := "main", runId := "r1", userText := "hi", history := [], compactCfg := .default
    tools := true, runTimeout := true, sink := .conn }

/-- The call, up to the update. -/
def callActs : List Act :=
  [.run (.sent true), .run .opened,
    .run (.delta (.toolCall { callId := "c1", name := some "exec", argsChunk := "\x7b\x7d" }) ""),
    .run (.delta (.done .toolUse) ""), .run (.stored true), .run (.sent true), .emit "12:00"]

/-- The pump gets to the update, then the tool returns. -/
def patientActs : List Act :=
  callActs ++ [.take, .land true, .run (.toolDone .ok "12:00"), .run (.sent true), .run (.stored true)]

theorem bracketed_of_orderly_patient :
    (Steps.exec (step callCtx) (start callCtx) patientActs).isSome = true ∧
      Steps.AllStates (step callCtx) Bracketed (start callCtx) patientActs :=
  ⟨by decide, bracketed_of_orderly callCtx patientActs (by decide)⟩

/-- The tool returns before its pump gets to the update, and the update is gone. -/
theorem bracketed_fails_on_queued_update :
    ¬ ∀ (ctx : RunCtx) (acts : List Act), Steps.AllStates (step ctx) Bracketed (start ctx) acts := by
  intro h
  have hacts := h callCtx (callActs ++ [.run (.toolDone .ok "12:00"), .run (.sent true)])
  have hrun : (Steps.exec (step callCtx) (start callCtx)
      (callActs ++ [.run (.toolDone .ok "12:00"), .run (.sent true)])).map
        (fun x => watchOf x.history) = some .broken := by
    decide
  obtain ⟨x, hx, hbroken⟩ := Option.map_eq_some_iff.1 hrun
  exact (Steps.allStates_iff.1 hacts _ x (List.prefix_refl _) hx).unbroken hbroken

end ToolPump

end OhMyClaw
