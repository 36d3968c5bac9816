import OhMyClaw.Server.Run

/-!
# What a run reports against what its sink took

The outcome of a run is read off the state machine, not off what was sent.  `Reported` is
what a reader of the outcome expects: a run that is reported as completed has had its end
taken, its start not refused, and nothing has stopped it.  `Told` says of each program counter how
the sink has answered the start and the end so far; two gaps remain, and they are the only
ones: a refused start leaves a state that is not terminal, which `outcomeOf` reads as completed,
and the answer to the end is not looked at.

    step_toldOk        one leg of the driver
    reported_iff       a run that has ended is reported as it should be exactly outside the two
-/

namespace OhMyClaw

namespace Run

/-- The sink's answers to one of the run's own lifecycle events, in order. -/
def answersTo (ctx : RunCtx) (phase : LifecyclePhase) (sent : List (Event × Bool)) : List Bool :=
  (sent.filter fun p => p.1 = lifecycle ctx phase).map (·.2)

def starts (ctx : RunCtx) (s : Drive) : List Bool := answersTo ctx .start s.sent
def ends (ctx : RunCtx) (s : Drive) : List Bool := answersTo ctx .end s.sent

/-- The run came to its own end: the sink did not refuse its start and took its end, and no
lost connection, abort, error or timeout stopped it. -/
structure EndedWell (ctx : RunCtx) (s : Drive) : Prop where
  started : false ∉ starts ctx s
  ended : ends ctx s = [true]
  unstopped : s.stopped = none

/-- Only a run that came to its own end is reported as completed. -/
def Reported (ctx : RunCtx) (s : Drive) : Prop := s.pc = .done .completed → EndedWell ctx s

theorem answersTo_append (ctx : RunCtx) (phase : LifecyclePhase) (sent more : List (Event × Bool)) :
    answersTo ctx phase (sent ++ more) = answersTo ctx phase sent ++ answersTo ctx phase more := by
  simp [answersTo]

theorem answersTo_own (ctx : RunCtx) (phase : LifecyclePhase) (ok : Bool) :
    answersTo ctx phase [(lifecycle ctx phase, ok)] = [ok] := by
  simp [answersTo]

theorem answersTo_other {ctx : RunCtx} {phase : LifecyclePhase} {ev : Event} (h : ev ≠ lifecycle ctx phase)
    (ok : Bool) : answersTo ctx phase [(ev, ok)] = [] := by
  simp [answersTo, h]

/-- The event is neither the start nor the end of the run. -/
structure Beside (ctx : RunCtx) (ev : Event) : Prop where
  start : ev ≠ lifecycle ctx .start
  end_ : ev ≠ lifecycle ctx .end

theorem lifecycle_ne (ctx : RunCtx) {p q : LifecyclePhase} (h : p ≠ q) :
    lifecycle ctx p ≠ lifecycle ctx q := by
  intro heq
  simp only [lifecycle, Event.lifecycle.injEq] at heq
  exact h heq.2.2

theorem beside_error (ctx : RunCtx) (msg : String) (kind : RunErrorKind) :
    Beside ctx (lifecycle ctx (.error msg kind)) :=
  ⟨lifecycle_ne ctx (by simp), lifecycle_ne ctx (by simp)⟩

theorem beside_side (ctx : RunCtx) (e : SideEvent) : Beside ctx (e.toEvent ctx) := by
  cases e <;> constructor <;> simp [SideEvent.toEvent, lifecycle]

/-! ## The invariant -/

/-- What the sink has answered so far. -/
structure Answers where
  starts : List Bool
  ends : List Bool
deriving DecidableEq

/-- The answers in a list of events sent. -/
def sinkAnswers (ctx : RunCtx) (sent : List (Event × Bool)) : Answers :=
  { starts := answersTo ctx .start sent, ends := answersTo ctx .end sent }

/-- What decides how the run will be reported. -/
structure Course where
  state : RunState
  stopped : Option RunErrorKind
  timedOut : Bool

def Drive.course (s : Drive) : Course := { state := s.state, stopped := s.stopped, timedOut := s.timedOut }

/-- Nothing has stopped the run. -/
structure Unstopped (c : Course) : Prop where
  stopped : c.stopped = none
  inTime : c.timedOut = false

/-- The run is under way: its start was not refused and its end not sent. -/
structure UnderWay (ans : Answers) (c : Course) : Prop where
  started : false ∉ ans.starts
  noEnd : ans.ends = []
  unstopped : Unstopped c

/-- The run is being stopped: a refusal of its end came only before the run timeout. -/
structure Cut (ans : Answers) (c : Course) : Prop where
  started : false ∉ ans.starts
  refused : false ∈ ans.ends → c.timedOut = true

/-- The end has been answered with `ok`. -/
structure Over (ok : Bool) (ans : Answers) (c : Course) : Prop where
  started : false ∉ ans.starts
  answered : ans.ends = [ok]
  state : c.state = .terminal .completed
  unstopped : Unstopped c

/-- What holds once the pending send is answered with `ok`. -/
def AfterSend.Told (ok : Bool) (ans : Answers) (c : Course) : AfterSend → Prop
  | .started =>
    Agent.Live c.state ∧ ans.ends = [] ∧ Unstopped c ∧ (false ∈ ans.starts ↔ ok = false)
  | .turn _ => UnderWay ans c ∧ Agent.Live c.state
  | .completed => Over ok ans c
  | .returns o => o ≠ .completed ∧ Cut ans c
  | .watchdog => outcomeOf c.state ≠ .completed ∧ Cut ans c
  | .exec _ => UnderWay ans c ∧ c.state = .awaitingTool
  | .executed _ _ => UnderWay ans c ∧ c.state = .awaitingTool

def AfterPersist.Told (ans : Answers) (c : Course) : AfterPersist → Prop
  | .finish => ∃ ok, Over ok ans c
  | .loopCheck _ => UnderWay ans c ∧ c.state = .awaitingTool
  | .feedBack _ _ => UnderWay ans c ∧ c.state = .awaitingTool

/-- How a run that has returned was answered. -/
structure Returned (o : RunOutcome) (ans : Answers) (c : Course) : Prop where
  completed : o = .completed → Unstopped c ∧
    ((false ∈ ans.starts ∧ ans.ends = []) ∨ (false ∉ ans.starts ∧ ∃ ok, ans.ends = [ok]))
  cut : o ≠ .completed → Cut ans c

/-- The answers once the pending send is answered too. -/
def landing (ctx : RunCtx) (ev : Event) (ok : Bool) (sent : List (Event × Bool)) : Answers :=
  sinkAnswers ctx (if ctx.sink = .detached then sent else sent ++ [(ev, ok)])

def Pc.Told (ctx : RunCtx) (sent : List (Event × Bool)) (c : Course) : Pc → Prop
  | .sending ev k => ∀ ok, mayAnswer ctx.sink ok = true → k.Told ok (landing ctx ev ok sent) c
  | .opening => UnderWay (sinkAnswers ctx sent) c ∧ Agent.Live c.state
  | .streaming _ => UnderWay (sinkAnswers ctx sent) c ∧ Agent.Live c.state
  | .persisting _ k => k.Told (sinkAnswers ctx sent) c
  | .toolRunning _ => UnderWay (sinkAnswers ctx sent) c ∧ c.state = .awaitingTool
  | .done o => Returned o (sinkAnswers ctx sent) c

def ToldOk (ctx : RunCtx) (s : Drive) : Prop := s.pc.Told ctx s.sent s.course

theorem toldOk_pc {ctx : RunCtx} {s : Drive} {pc : Pc} (h : ToldOk ctx s) (hpc : s.pc = pc) :
    pc.Told ctx s.sent s.course := by
  rw [← hpc]
  exact h

theorem sinkAnswers_append (ctx : RunCtx) (sent more : List (Event × Bool)) :
    sinkAnswers ctx (sent ++ more) =
      { starts := (sinkAnswers ctx sent).starts ++ (sinkAnswers ctx more).starts
        ends := (sinkAnswers ctx sent).ends ++ (sinkAnswers ctx more).ends } := by
  simp [sinkAnswers, answersTo_append]

/-- An event beside the start and the end changes no answer. -/
theorem sinkAnswers_beside {ctx : RunCtx} {ev : Event} (h : Beside ctx ev) (ok : Bool)
    (sent : List (Event × Bool)) : sinkAnswers ctx (sent ++ [(ev, ok)]) = sinkAnswers ctx sent := by
  rw [sinkAnswers_append]
  simp [sinkAnswers, answersTo_other h.start, answersTo_other h.end_]

/-! ## The legs of the driver -/

section Legs

variable {ctx : RunCtx}

/-- An event is answered when its send returns; a detached sink has taken it before. -/
theorem emitInline_toldOk {ev : Event} {k : AfterSend} {s : Drive}
    (h : ∀ ok, k.Told ok (sinkAnswers ctx (s.sent ++ [(ev, ok)])) s.course) :
    ToldOk ctx (emitInline ctx ev k s) := by
  unfold emitInline
  split
  · next hsink =>
    intro ok hok
    obtain rfl : ok = true := by simpa [mayAnswer, hsink] using hok
    unfold landing
    rw [if_pos hsink]
    exact h true
  · next hsink =>
    intro ok hok
    unfold landing
    rw [if_neg hsink]
    exact h ok

/-- An event beside the start and the end: its answer tells nothing. -/
theorem emitInline_beside_toldOk {ev : Event} {k : AfterSend} {s : Drive} (hev : Beside ctx ev)
    (h : ∀ ok, k.Told ok (sinkAnswers ctx s.sent) s.course) : ToldOk ctx (emitInline ctx ev k s) := by
  apply emitInline_toldOk
  intro ok
  rw [sinkAnswers_beside hev]
  exact h ok

theorem emitError_toldOk {kind : RunErrorKind} {msg : String} {o : RunOutcome} {s : Drive}
    (ho : o ≠ .completed) (h : Cut (sinkAnswers ctx s.sent) s.course) :
    ToldOk ctx (emitError ctx kind msg (.returns o) s) :=
  emitInline_beside_toldOk (beside_error ctx msg kind) fun _ => ⟨ho, h⟩

/-- A state of a turn is not terminal, and counts as completed. -/
theorem outcomeOf_live {state : RunState} (h : Agent.Live state) : outcomeOf state = .completed := by
  rcases h with rfl | rfl <;> rfl

/-- A run that is under way may be cut. -/
theorem UnderWay.cut {ans : Answers} {c d : Course} (h : UnderWay ans c) : Cut ans d where
  started := h.started
  refused := by simp [h.noEnd]

theorem feedBack_toldOk {call : ToolCallSpec} {output : String} {s : Drive}
    (h : UnderWay (sinkAnswers ctx s.sent) s.course) (hs : s.state = .awaitingTool) :
    ToldOk ctx (feedBack ctx call output s) := by
  refine ⟨⟨h.started, h.noEnd, h.unstopped.stopped, h.unstopped.inTime⟩, ?_⟩
  show Agent.Live (Agent.step s.state _ s.acc).1
  rw [hs]
  exact Or.inl rfl

theorem loopCheck_toldOk {call : ToolCallSpec} {s : Drive}
    (h : UnderWay (sinkAnswers ctx s.sent) s.course) (hs : s.state = .awaitingTool) :
    ToldOk ctx (loopCheck ctx call s) := by
  unfold loopCheck
  simp only
  split
  · exact emitError_toldOk (by simp) h.cut
  · split
    · exact emitError_toldOk (by simp) h.cut
    · exact emitInline_beside_toldOk ⟨by simp [lifecycle], by simp [lifecycle]⟩ fun _ => ⟨h, hs⟩

theorem afterPersist_toldOk {k : AfterPersist} {s : Drive} (h : k.Told (sinkAnswers ctx s.sent) s.course) :
    ToldOk ctx (afterPersist ctx k s) := by
  cases k with
  | finish =>
    obtain ⟨ok, hover⟩ := h
    have hstate : s.state = .terminal .completed := hover.state
    constructor
    · intro _
      exact ⟨hover.unstopped, Or.inr ⟨hover.started, ok, hover.answered⟩⟩
    · intro ho
      rw [hstate] at ho
      exact absurd rfl ho
  | loopCheck call => exact loopCheck_toldOk h.1 h.2
  | feedBack call output => exact feedBack_toldOk h.1 h.2

theorem persist_toldOk {e : NewEntry} {k : AfterPersist} {s : Drive}
    (h : k.Told (sinkAnswers ctx s.sent) s.course) : ToldOk ctx (persist ctx e k s) := by
  unfold persist
  split
  · exact afterPersist_toldOk h
  · exact h

/-- Where the driver goes on, once the answer is in. -/
theorem afterSend_toldOk {k : AfterSend} {ok : Bool} {s : Drive}
    (h : k.Told ok (sinkAnswers ctx s.sent) s.course) : ToldOk ctx (afterSend ctx k ok s) := by
  cases k with
  | started =>
    obtain ⟨hlive, hends, hun, hstart⟩ := h
    simp only [afterSend]
    split
    · next hok =>
      have hstarted : false ∉ (sinkAnswers ctx s.sent).starts := by
        rw [hstart, hok]
        simp
      exact ⟨⟨hstarted, hends, hun⟩, hlive⟩
    · next hok =>
      -- The start was refused, and the state is not terminal: this reads as completed.
      have hrefused : false ∈ (sinkAnswers ctx s.sent).starts := hstart.2 (by simpa using hok)
      constructor
      · intro _
        exact ⟨hun, Or.inl ⟨hrefused, hends⟩⟩
      · intro ho
        exact absurd (outcomeOf_live hlive) ho
  | turn tc => exact h
  | completed => exact persist_toldOk ⟨ok, h⟩
  | returns o =>
    constructor
    · intro ho
      exact absurd ho h.1
    · intro _
      exact h.2
  | watchdog => exact emitError_toldOk h.1 h.2
  | exec call =>
    simp only [afterSend]
    split
    · exact h
    · exact persist_toldOk h
  | executed call output => exact persist_toldOk h

/-- A stop by an event that the live state machine turns into a failure. -/
theorem stopWith_toldOk {ev : StepEvent} {o : RunOutcome} {msg : String} {s : Drive}
    (hstep : Agent.step s.state ev s.acc = (.terminal o, [.emitLifecycleError msg]))
    (ho : o ≠ .completed) (h : Cut (sinkAnswers ctx s.sent) s.course) :
    ToldOk ctx (stopWith ctx ev s) := by
  simp only [stopWith, advance, executeEffects, hstep, List.findSome?_cons, effectEvent]
  exact emitInline_beside_toldOk (beside_error ctx msg .failed) fun _ =>
    ⟨ho, h.started, h.refused⟩

theorem advance_text_toldOk {t : String} {tc : PartialCall} {s : Drive}
    (h : UnderWay (sinkAnswers ctx s.sent) s.course) (hs : Agent.Live s.state) :
    ToldOk ctx (advance ctx (.modelText t) (.turn tc) s) := by
  simp only [advance, executeEffects, Agent.step_modelText hs, List.findSome?_cons, effectEvent]
  refine emitInline_beside_toldOk ⟨by simp [lifecycle], by simp [lifecycle]⟩ fun _ => ⟨?_, Or.inr rfl⟩
  exact ⟨h.started, h.noEnd, h.unstopped.stopped, h.unstopped.inTime⟩

/-- The end of the last turn asks the sink to take the end. -/
theorem advance_done_toldOk {s : Drive} (h : UnderWay (sinkAnswers ctx s.sent) s.course)
    (hs : Agent.Live s.state) : ToldOk ctx (advance ctx .modelDone .completed s) := by
  simp only [advance, executeEffects, Agent.step_modelDone hs, List.findSome?_cons, effectEvent]
  apply emitInline_toldOk
  intro ok
  have hne : lifecycle ctx .end ≠ lifecycle ctx .start := lifecycle_ne ctx (by simp)
  have hends : answersTo ctx .end s.sent = [] := h.noEnd
  refine ⟨?_, ?_, rfl, h.unstopped.stopped, h.unstopped.inTime⟩
  · show false ∉ answersTo ctx .start (s.sent ++ [(lifecycle ctx .end, ok)])
    rw [answersTo_append, answersTo_other hne, List.append_nil]
    exact h.started
  · show answersTo ctx .end (s.sent ++ [(lifecycle ctx .end, ok)]) = [ok]
    rw [answersTo_append, answersTo_own, hends, List.nil_append]

theorem toolCallTurn_toldOk {tc : PartialCall} {genCallId : String} {s : Drive}
    (h : UnderWay (sinkAnswers ctx s.sent) s.course) (hs : Agent.Live s.state) :
    ToldOk ctx (toolCallTurn ctx tc genCallId s) := by
  simp only [toolCallTurn, Agent.step_modelToolCall hs]
  refine persist_toldOk ⟨?_, rfl⟩
  exact ⟨h.started, h.noEnd, h.unstopped.stopped, h.unstopped.inTime⟩

theorem truncatedTurn_toldOk {tc : PartialCall} {s : Drive}
    (h : UnderWay (sinkAnswers ctx s.sent) s.course) (hs : Agent.Live s.state) :
    ToldOk ctx (truncatedTurn ctx tc s) := by
  have hon : UnderWay (sinkAnswers ctx s.sent) s.course ∧ Agent.Live s.course.state := ⟨h, hs⟩
  simp only [truncatedTurn]
  split
  · exact emitError_toldOk (by simp) h.cut
  · split
    · exact hon
    · exact hon

theorem onDelta_toldOk {tc : PartialCall} {d : Delta} {genCallId : String} {s : Drive}
    (hpc : s.pc = .streaming tc) (h : UnderWay (sinkAnswers ctx s.sent) s.course) (hs : Agent.Live s.state) :
    ToldOk ctx (onDelta ctx tc d genCallId s) := by
  cases d with
  | text t => exact advance_text_toldOk h hs
  | reasoning r =>
    exact emitInline_beside_toldOk ⟨by simp [lifecycle], by simp [lifecycle]⟩ fun _ => ⟨h, hs⟩
  | toolCall d => exact ⟨h, hs⟩
  | usage u =>
    have hok : ToldOk ctx s := by
      rw [ToldOk, hpc]
      exact ⟨h, hs⟩
    simp only [onDelta]
    split <;> exact hok
  | done reason =>
    cases reason with
    | stop => exact advance_done_toldOk h hs
    | toolUse => exact toolCallTurn_toldOk h hs
    | length => exact truncatedTurn_toldOk h hs

/-! ## A leg -/

/-- At the model a run is under way. -/
theorem underWay_of_atModel {s : Drive} (h : ToldOk ctx s) (hpc : s.pc.AtModel) :
    UnderWay (sinkAnswers ctx s.sent) s.course ∧ Agent.Live s.state := by
  rcases hpc with hpc | ⟨tc, hpc⟩
  · exact toldOk_pc h hpc
  · exact toldOk_pc h hpc

theorem AfterSend.Told.cut {k : AfterSend} {ans : Answers} {c d : Course} (h : k.Told true ans c)
    (hd : d.timedOut = true) : Cut ans d := by
  refine ⟨?_, fun _ => hd⟩
  cases k with
  | started =>
    rw [h.2.2.2]
    simp
  | turn tc => exact h.1.started
  | completed => exact h.started
  | returns o => exact h.2.started
  | watchdog => exact h.2.started
  | exec call => exact h.1.started
  | executed call output => exact h.1.started

/-- Wherever a run waits it may be cut by its timeout. -/
theorem cut_of_waits {s : Drive} {d : Course} (h : ToldOk ctx s) (hwaits : s.pc.waits ctx.sink = true)
    (hd : d.timedOut = true) : Cut (sinkAnswers ctx s.sent) d := by
  refine ⟨?_, fun _ => hd⟩
  cases hpc : s.pc with
  | sending ev k =>
    -- The start that is still to be answered with yes is not among the refused ones.
    have hland : false ∉ (landing ctx ev true s.sent).starts :=
      ((toldOk_pc h hpc true rfl).cut hd).started
    unfold landing at hland
    split at hland
    · exact hland
    · rw [sinkAnswers_append] at hland
      exact fun hin => hland (List.mem_append_left _ hin)
  | opening => exact (underWay_of_atModel h (Or.inl hpc)).1.started
  | streaming tc => exact (underWay_of_atModel h (Or.inr ⟨tc, hpc⟩)).1.started
  | persisting e k =>
    have hk := toldOk_pc h hpc
    cases k with
    | finish =>
      obtain ⟨ok, hover⟩ := hk
      exact hover.started
    | loopCheck call => exact hk.1.started
    | feedBack call output => exact hk.1.started
  | toolRunning call => exact (toldOk_pc h hpc).1.started
  | done o =>
    rw [hpc] at hwaits
    exact absurd hwaits (by simp [Pc.waits])

theorem onSent_toldOk {ev : Event} {k : AfterSend} {ok : Bool} {s : Drive} (hpc : s.pc = .sending ev k)
    (hok : mayAnswer ctx.sink ok = true) (h : ToldOk ctx s) : ToldOk ctx (onSent ctx ev k ok s) := by
  have hk : k.Told ok (landing ctx ev ok s.sent) s.course := toldOk_pc h hpc ok hok
  unfold onSent
  apply afterSend_toldOk
  unfold landing at hk
  split
  · next hsink =>
    rw [if_pos hsink] at hk
    exact hk
  · next hsink =>
    rw [if_neg hsink] at hk
    exact hk

/-- What happens beside the driver answers neither the start nor the end. -/
theorem Pc.Told.side {pc : Pc} {sent : List (Event × Bool)} {c : Course} (h : pc.Told ctx sent c)
    (e : SideEvent) (ok : Bool) : pc.Told ctx (sent ++ [(e.toEvent ctx, ok)]) c := by
  have hsame := sinkAnswers_beside (beside_side ctx e) ok sent
  cases pc with
  | sending ev k =>
    intro b hb
    have hland : landing ctx ev b (sent ++ [(e.toEvent ctx, ok)]) = landing ctx ev b sent := by
      unfold landing
      split
      · exact hsame
      · rw [sinkAnswers_append, hsame, ← sinkAnswers_append]
    rw [hland]
    exact h b hb
  | opening =>
    show UnderWay (sinkAnswers ctx _) c ∧ _
    rw [hsame]
    exact h
  | streaming tc =>
    show UnderWay (sinkAnswers ctx _) c ∧ _
    rw [hsame]
    exact h
  | persisting e k =>
    show k.Told (sinkAnswers ctx _) c
    rw [hsame]
    exact h
  | toolRunning call =>
    show UnderWay (sinkAnswers ctx _) c ∧ _
    rw [hsame]
    exact h
  | done o =>
    show Returned o (sinkAnswers ctx _) c
    rw [hsame]
    exact h

/-- One leg keeps account of the sink's answers. -/
theorem step_toldOk {s t : Drive} {a : Act} (h : ToldOk ctx s) (hstep : step ctx s a = some t) :
    ToldOk ctx t := by
  cases leg_of_step hstep with
  | sent hpc hok => exact onSent_toldOk hpc hok h
  | opened hpc =>
    have hway := underWay_of_atModel h (Or.inl hpc)
    exact hway
  | openFailed hpc =>
    obtain ⟨hway, hlive⟩ := underWay_of_atModel h (Or.inl hpc)
    exact stopWith_toldOk (Agent.step_modelError hlive _ _) (by simp) hway.cut
  | closed hpc hsink =>
    obtain ⟨hway, hlive⟩ := underWay_of_atModel h hpc
    exact stopWith_toldOk (Agent.step_abort hlive _) (by simp) hway.cut
  | @delta tc d genCallId hpc =>
    obtain ⟨hway, hlive⟩ := underWay_of_atModel h (Or.inr ⟨tc, hpc⟩)
    exact onDelta_toldOk hpc hway hlive
  | @streamErr tc msg hpc =>
    obtain ⟨hway, hlive⟩ := underWay_of_atModel h (Or.inr ⟨tc, hpc⟩)
    exact stopWith_toldOk (Agent.step_modelError hlive _ _) (by simp) hway.cut
  | @streamEnd tc hpc =>
    obtain ⟨hway, hlive⟩ := underWay_of_atModel h (Or.inr ⟨tc, hpc⟩)
    exact advance_done_toldOk hway hlive
  | @cancelled tc hpc hcancel =>
    obtain ⟨hway, hlive⟩ := underWay_of_atModel h (Or.inr ⟨tc, hpc⟩)
    exact stopWith_toldOk (Agent.step_abort hlive _) (by simp) hway.cut
  | @idle tc hpc =>
    obtain ⟨hway, hlive⟩ := underWay_of_atModel h (Or.inr ⟨tc, hpc⟩)
    simp only [advance, executeEffects, Agent.step_abort hlive, List.findSome?_cons, effectEvent]
    exact emitInline_beside_toldOk (beside_error ctx "aborted" .failed) fun _ =>
      ⟨by simp [Drive.course, outcomeOf], hway.cut⟩
  | @stored e k ok hpc =>
    have hk : k.Told (sinkAnswers ctx s.sent) s.course := toldOk_pc h hpc
    apply afterPersist_toldOk
    split <;> exact hk
  | @toolDone call status content hpc =>
    have hk := toldOk_pc h hpc
    exact emitInline_beside_toldOk ⟨by simp [lifecycle], by simp [lifecycle]⟩ fun _ => hk
  | @side e ok hpumps hok => exact Pc.Told.side h e ok
  | abort => exact h
  | runTimeout ht hfirst hpc =>
    have hcut := cut_of_waits (d := { s.course with timedOut := true }) h hpc rfl
    exact emitError_toldOk (by simp) ⟨hcut.started, hcut.refused⟩
  | panic hpc =>
    constructor
    · intro ho
      simp at ho
    · intro _
      rcases hpc with hpc | ⟨call, hpc⟩
      · exact (underWay_of_atModel h hpc).1.cut
      · exact (toldOk_pc h hpc).1.cut

theorem start_toldOk : ToldOk ctx (start ctx) := by
  apply emitInline_toldOk
  intro ok
  have hne : lifecycle ctx .start ≠ lifecycle ctx .end := lifecycle_ne ctx (by simp)
  refine ⟨Or.inl rfl, ?_, ⟨rfl, rfl⟩, ?_⟩
  · show answersTo ctx .end ([] ++ [(lifecycle ctx .start, ok)]) = []
    rw [List.nil_append, answersTo_other hne]
  · show false ∈ answersTo ctx .start ([] ++ [(lifecycle ctx .start, ok)]) ↔ ok = false
    rw [List.nil_append, answersTo_own]
    cases ok <;> simp

end Legs

/-! ## Whole runs -/

/-- What the report of a run that has returned depends on: the sink did not refuse the start, and
it refused the end only where the run timeout then stopped the run. -/
def AnswersFit (ctx : RunCtx) (s : Drive) : Prop :=
  false ∉ starts ctx s ∧ (false ∈ ends ctx s → s.timedOut = true)

theorem reported_iff_of_returned {ctx : RunCtx} {s : Drive} {o : RunOutcome} (hdone : s.pc = .done o)
    (h : Returned o (sinkAnswers ctx s.sent) s.course) : Reported ctx s ↔ AnswersFit ctx s := by
  by_cases ho : o = .completed
  · obtain ⟨hun, hanswers⟩ := h.completed ho
    have htime : s.timedOut = false := hun.inTime
    constructor
    · intro hrep
      have hwell := hrep (by rw [hdone, ho])
      refine ⟨hwell.started, fun hrefused => ?_⟩
      rw [hwell.ended] at hrefused
      simp at hrefused
    · rintro ⟨hstarted, hrefused⟩ _
      rcases hanswers with ⟨hno, _⟩ | ⟨_, ok, hend⟩
      · exact absurd hno hstarted
      · have hends : ends ctx s = [ok] := hend
        refine ⟨hstarted, ?_, hun.stopped⟩
        cases ok with
        | true => exact hends
        | false =>
          have hcut := hrefused (by simp [hends])
          rw [htime] at hcut
          simp at hcut
  · have hcut := h.cut ho
    constructor
    · intro _
      exact ⟨hcut.started, hcut.refused⟩
    · intro _ hcompleted
      rw [hdone] at hcompleted
      exact absurd (Pc.done.inj hcompleted) ho

/-- A run driven to its end is reported as it should be if and only if the sink did not refuse
its start, nor, unless the run timeout then stopped it, its end. -/
theorem reported_iff (ctx : RunCtx) (acts : List Act) (s : Drive) (o : RunOutcome)
    (hrun : Steps.exec (step ctx) (start ctx) acts = some s) (hdone : s.pc = .done o) :
    Reported ctx s ↔ AnswersFit ctx s := by
  have htold : ToldOk ctx s :=
    Steps.exec_invariant (fun _ _ _ h hs => step_toldOk h hs) start_toldOk hrun
  exact reported_iff_of_returned hdone (toldOk_pc htold hdone)

/-- A run on a connection, with a turn of text. -/
def reportCtx : RunCtx :=
  { sessionId := "main", runId := "r1", userText := "hi", history := [], compactCfg := .default
    tools := false, runTimeout := true, sink := .conn }

theorem reported_iff_turn :
    ∃ s, Steps.exec (step reportCtx) (start reportCtx)
        [.sent true, .opened, .delta (.text "ok") "", .sent true, .streamEnd, .sent true,
          .stored true] = some s ∧
      s.pc = .done .completed ∧ (Reported reportCtx s ↔ AnswersFit reportCtx s) := by
  have hrun : (Steps.exec (step reportCtx) (start reportCtx)
      [.sent true, .opened, .delta (.text "ok") "", .sent true, .streamEnd, .sent true,
        .stored true]).map (·.pc) = some (.done .completed) := by
    decide
  obtain ⟨s, hs, hpc⟩ := Option.map_eq_some_iff.1 hrun
  exact ⟨s, hs, hpc, reported_iff reportCtx _ s _ hs hpc⟩

/-- The connection is dead before the start is sent: no model was asked, no end was sent, and
the run is reported as completed. -/
theorem reported_fails_on_dead_connection :
    ¬ ∀ (ctx : RunCtx) (acts : List Act) (s : Drive),
      Steps.exec (step ctx) (start ctx) acts = some s → Reported ctx s := by
  intro h
  have hrun : (Steps.exec (step reportCtx) (start reportCtx) [.sent false]).map
      (fun s => (s.pc, ends reportCtx s)) = some (.done .completed, []) := by
    decide
  obtain ⟨s, hs, hfinal⟩ := Option.map_eq_some_iff.1 hrun
  simp only [Prod.mk.injEq] at hfinal
  have hend := (h reportCtx _ s hs hfinal.1).ended
  rw [hfinal.2] at hend
  simp at hend

end Run

end OhMyClaw
