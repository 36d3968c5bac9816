import OhMyClaw.Server.Run

/-!
# The events a run sends

A client reads the events of a run as one word: a start, anything but lifecycle events, one
terminal, nothing more; the terminal is the end of a completed run or an error whose kind
names what stopped it.  The driver keeps to this on every step outside `Irregular`: an abort
or a lost connection it notices, the idle watchdog, a panic, a refused start, a model error
after the token was set, and a timeout or a tool's side event that comes outside the open
part of the word.

    step_eventsOk     one leg of the driver, when it is regular
    run_clientWord    a whole run of regular legs
-/

namespace OhMyClaw

namespace Run

/-- The events pushed so far, read as a word. -/
def pushed (s : Drive) : Word := wordOf (s.sent.map (·.1))

/-- The terminal fits the outcome: the end exactly for a completed run, otherwise an error of
the kind that names what stopped the run. -/
def Fits (terminal : LifecyclePhase) (outcome : RunOutcome) (stopped : Option RunErrorKind) : Prop :=
  (terminal = .end ∧ outcome = .completed) ∨
    ∃ msg kind, terminal = .error msg kind ∧ outcome ≠ .completed ∧ stopped = some kind

/-- What a client may rely on: the word never breaks, and once the driver has returned it is
complete and its terminal fits the outcome. -/
structure ClientWord (s : Drive) : Prop where
  unbroken : pushed s ≠ .broken
  complete : ∀ o, s.pc = .done o → ∃ start mid last terminal,
    s.sent.map (·.1) = start :: mid ++ [last] ∧ start.lifecycle? = some .start ∧
      (∀ e ∈ mid, e.lifecycle? = none) ∧ last.lifecycle? = some terminal ∧
      Fits terminal o s.stopped

/-! ## The invariant -/

/-- The word is closed by a terminal that fits. -/
def Ended (w : Word) (outcome : RunOutcome) (stopped : Option RunErrorKind) : Prop :=
  ∃ t, w = .closed t ∧ Fits t outcome stopped

/-- What holds of the word once the pending send has landed. -/
def AfterSend.Wants (w : Word) (state : RunState) (stopped : Option RunErrorKind) : AfterSend → Prop
  | .started => w = .open ∧ Agent.Live state
  | .turn _ => w = .open ∧ Agent.Live state
  | .completed => w = .closed .end ∧ state = .terminal .completed
  | .returns o => Ended w o stopped
  | .watchdog => False
  | .exec _ => w = .open ∧ state = .awaitingTool
  | .executed _ _ => w = .open ∧ state = .awaitingTool

def AfterPersist.Wants (w : Word) (state : RunState) : AfterPersist → Prop
  | .finish => w = .closed .end ∧ state = .terminal .completed
  | .loopCheck _ => w = .open ∧ state = .awaitingTool
  | .feedBack _ _ => w = .open ∧ state = .awaitingTool

/-- The word once the event in flight, if there is one, has landed. -/
def landed (ctx : RunCtx) (ev : Event) (w : Word) : Word :=
  if ctx.sink = .detached then w else w.push ev

def Pc.Wants (ctx : RunCtx) (w : Word) (state : RunState) (stopped : Option RunErrorKind) : Pc → Prop
  | .sending ev k => k.Wants (landed ctx ev w) state stopped
  | .opening => w = .open ∧ Agent.Live state
  | .streaming _ => w = .open ∧ Agent.Live state
  | .persisting _ k => k.Wants w state
  | .toolRunning _ => w = .open ∧ state = .awaitingTool
  | .done o => Ended w o stopped

def EventsOk (ctx : RunCtx) (s : Drive) : Prop := s.pc.Wants ctx (pushed s) s.state s.stopped

theorem pushed_snoc {s : Drive} {ev : Event} {ok : Bool} :
    pushed { s with sent := s.sent ++ [(ev, ok)] } = (pushed s).push ev := by
  simp [pushed]

theorem ended_end {w : Word} {stopped : Option RunErrorKind} (h : w = .closed .end) :
    Ended w .completed stopped :=
  ⟨.end, h, Or.inl ⟨rfl, rfl⟩⟩

theorem ended_error (ctx : RunCtx) {w : Word} (h : w = .open) (msg : String) {kind : RunErrorKind}
    {o : RunOutcome} (ho : o ≠ .completed) :
    Ended (w.push (lifecycle ctx (.error msg kind))) o (some kind) := by
  subst h
  exact ⟨.error msg kind, rfl, Or.inr ⟨msg, kind, rfl, ho, rfl⟩⟩

/-! ## The legs of the driver -/

theorem emitInline_eventsOk {ctx : RunCtx} {ev : Event} {k : AfterSend} {s : Drive}
    (h : k.Wants ((pushed s).push ev) s.state s.stopped) : EventsOk ctx (emitInline ctx ev k s) := by
  unfold emitInline
  split
  · next hsink =>
    simp only [EventsOk, Pc.Wants, landed, hsink, if_true]
    simpa [pushed] using h
  · next hsink =>
    simp only [EventsOk, Pc.Wants, landed]
    rw [if_neg hsink]
    exact h

theorem beginTurn_eventsOk {ctx : RunCtx} {s : Drive} (hw : pushed s = .open)
    (hs : Agent.Live s.state) : EventsOk ctx (beginTurn ctx s) :=
  ⟨hw, hs⟩

theorem feedBack_eventsOk {ctx : RunCtx} {call : ToolCallSpec} {output : String} {s : Drive}
    (hw : pushed s = .open) (hs : s.state = .awaitingTool) :
    EventsOk ctx (feedBack ctx call output s) := by
  refine beginTurn_eventsOk hw ?_
  simp only [hs]
  exact Or.inl rfl

theorem loopCheck_eventsOk {ctx : RunCtx} {call : ToolCallSpec} {s : Drive}
    (hw : pushed s = .open) (hs : s.state = .awaitingTool) : EventsOk ctx (loopCheck ctx call s) := by
  simp only [loopCheck, emitError]
  split
  · exact emitInline_eventsOk (ended_error ctx hw _ (by simp))
  · split
    · exact emitInline_eventsOk (ended_error ctx hw _ (by simp))
    · refine emitInline_eventsOk ⟨?_, hs⟩
      show (pushed s).push _ = .open
      rw [hw]
      rfl

theorem afterPersist_eventsOk {ctx : RunCtx} {k : AfterPersist} {s : Drive}
    (h : k.Wants (pushed s) s.state) : EventsOk ctx (afterPersist ctx k s) := by
  cases k with
  | finish =>
    obtain ⟨hw, hs⟩ := h
    simp only [afterPersist, hs]
    exact ended_end hw
  | loopCheck call => exact loopCheck_eventsOk h.1 h.2
  | feedBack call output => exact feedBack_eventsOk h.1 h.2

theorem persist_eventsOk {ctx : RunCtx} {e : NewEntry} {k : AfterPersist} {s : Drive}
    (h : k.Wants (pushed s) s.state) : EventsOk ctx (persist ctx e k s) := by
  unfold persist
  split
  · exact afterPersist_eventsOk h
  · exact h

theorem afterSend_eventsOk {ctx : RunCtx} {k : AfterSend} {ok : Bool} {s : Drive}
    (h : k.Wants (pushed s) s.state s.stopped) (hok : ok = true ∨ k ≠ .started) :
    EventsOk ctx (afterSend ctx k ok s) := by
  cases k with
  | started =>
    obtain rfl : ok = true := by simpa using hok
    exact beginTurn_eventsOk h.1 h.2
  | turn tc => exact h
  | completed => exact persist_eventsOk h
  | returns o => exact h
  | watchdog => exact h.elim
  | exec call =>
    simp only [afterSend]
    split
    · exact h
    · exact persist_eventsOk h
  | executed call output => exact persist_eventsOk h

/-- A stop by an event the live state machine turns into an error: the error closes the word. -/
theorem stopWith_eventsOk {ctx : RunCtx} {msg : String} {s : Drive} (hw : pushed s = .open)
    (hs : Agent.Live s.state) (hstopped : s.stopped = some .failed) :
    EventsOk ctx (stopWith ctx (.modelError msg) s) := by
  simp only [stopWith, advance, executeEffects, Agent.step_modelError hs, List.findSome?_cons,
    effectEvent]
  apply emitInline_eventsOk
  show Ended ((pushed s).push _) _ s.stopped
  rw [hstopped]
  exact ended_error ctx hw msg (by simp [outcomeOf])

theorem advance_text_eventsOk {ctx : RunCtx} {t : String} {tc : PartialCall} {s : Drive}
    (hw : pushed s = .open) (hs : Agent.Live s.state) :
    EventsOk ctx (advance ctx (.modelText t) (.turn tc) s) := by
  simp only [advance, executeEffects, Agent.step_modelText hs, List.findSome?_cons, effectEvent]
  refine emitInline_eventsOk ⟨?_, Or.inr rfl⟩
  show (pushed s).push _ = .open
  rw [hw]
  rfl

theorem advance_done_eventsOk {ctx : RunCtx} {s : Drive} (hw : pushed s = .open)
    (hs : Agent.Live s.state) : EventsOk ctx (advance ctx .modelDone .completed s) := by
  simp only [advance, executeEffects, Agent.step_modelDone hs, List.findSome?_cons, effectEvent]
  refine emitInline_eventsOk ⟨?_, rfl⟩
  show (pushed s).push _ = _
  rw [hw]
  rfl

theorem toolCallTurn_eventsOk {ctx : RunCtx} {tc : PartialCall} {genCallId : String} {s : Drive}
    (hw : pushed s = .open) (hs : Agent.Live s.state) :
    EventsOk ctx (toolCallTurn ctx tc genCallId s) := by
  simp only [toolCallTurn, Agent.step_modelToolCall hs]
  exact persist_eventsOk ⟨hw, rfl⟩

theorem truncatedTurn_eventsOk {ctx : RunCtx} {tc : PartialCall} {s : Drive}
    (hw : pushed s = .open) (hs : Agent.Live s.state) : EventsOk ctx (truncatedTurn ctx tc s) := by
  simp only [truncatedTurn, emitError]
  split
  · exact emitInline_eventsOk (ended_error ctx hw _ (by simp))
  · split
    · exact beginTurn_eventsOk hw hs
    · exact beginTurn_eventsOk hw hs

theorem onDelta_eventsOk {ctx : RunCtx} {tc : PartialCall} {d : Delta} {genCallId : String}
    {s : Drive} (hpc : s.pc = .streaming tc) (hw : pushed s = .open) (hs : Agent.Live s.state) :
    EventsOk ctx (onDelta ctx tc d genCallId s) := by
  cases d with
  | text t => exact advance_text_eventsOk hw hs
  | reasoning r =>
    refine emitInline_eventsOk ⟨?_, hs⟩
    show (pushed s).push _ = .open
    rw [hw]
    rfl
  | toolCall d => exact ⟨hw, hs⟩
  | usage u =>
    have hok : EventsOk ctx s := by
      rw [EventsOk, hpc]
      exact ⟨hw, hs⟩
    simp only [onDelta]
    split <;> exact hok
  | done reason =>
    cases reason with
    | stop => exact advance_done_eventsOk hw hs
    | toolUse => exact toolCallTurn_eventsOk hw hs
    | length => exact truncatedTurn_eventsOk hw hs

/-! ## Regular steps -/

/-- The steps on which the driver leaves the client's word, or may: see the module header. -/
def Irregular (s : Drive) : Act → Prop
  | .sent ok => ok = false ∧ ∃ ev, s.pc = .sending ev .started
  | .openFailed _ => s.cancelled = true
  | .streamErr _ => s.cancelled = true
  | .closed => True
  | .cancelled => True
  | .idle => True
  | .panic => True
  | .side _ _ => pushed s ≠ .open
  | .runTimeout => pushed s ≠ .open
  | _ => False

theorem errorCause_failed {s : Drive} (h : ¬ s.cancelled = true) :
    some (errorCause s) = some RunErrorKind.failed := by
  simp [errorCause, h]

theorem step_eventsOk {ctx : RunCtx} {s t : Drive} {a : Act} (h : EventsOk ctx s)
    (hreg : ¬ Irregular s a) (hstep : step ctx s a = some t) : EventsOk ctx t := by
  have hleg := leg_of_step hstep
  cases hleg with
  | @sent ev k ok hpc _ =>
    rw [EventsOk, hpc] at h
    have hok : ok = true ∨ k ≠ .started := by
      by_contra hno
      simp only [not_or, Bool.not_eq_true, not_not] at hno
      exact hreg ⟨hno.1, ev, by rw [hpc, hno.2]⟩
    simp only [onSent]
    split
    · next hsink =>
      simp only [Pc.Wants, landed, hsink, if_true] at h
      exact afterSend_eventsOk h hok
    · next hsink =>
      simp only [Pc.Wants, landed, hsink, if_false] at h
      refine afterSend_eventsOk ?_ hok
      show k.Wants (pushed { s with sent := s.sent ++ [(ev, ok)] }) s.state s.stopped
      rw [pushed_snoc]
      exact h
  | opened hpc =>
    rw [EventsOk, hpc] at h
    exact h
  | openFailed hpc =>
    rw [EventsOk, hpc] at h
    exact stopWith_eventsOk h.1 h.2 (errorCause_failed hreg)
  | closed hpc _ => exact absurd trivial hreg
  | delta hpc =>
    rw [EventsOk, hpc] at h
    exact onDelta_eventsOk hpc h.1 h.2
  | streamErr hpc =>
    rw [EventsOk, hpc] at h
    exact stopWith_eventsOk h.1 h.2 (errorCause_failed hreg)
  | streamEnd hpc =>
    rw [EventsOk, hpc] at h
    exact advance_done_eventsOk h.1 h.2
  | cancelled hpc _ => exact absurd trivial hreg
  | idle hpc => exact absurd trivial hreg
  | stored hpc =>
    rw [EventsOk, hpc] at h
    split <;> exact afterPersist_eventsOk h
  | toolDone hpc =>
    rw [EventsOk, hpc] at h
    refine emitInline_eventsOk ⟨?_, h.2⟩
    rw [h.1]
    rfl
  | @side e ok _ _ =>
    have hopen : pushed s = .open := not_not.1 hreg
    have hsame : (pushed s).push (e.toEvent ctx) = pushed s := by
      rw [hopen]
      cases e <;> rfl
    show s.pc.Wants ctx (pushed { s with sent := s.sent ++ [(e.toEvent ctx, ok)] }) s.state s.stopped
    rw [pushed_snoc, hsame]
    exact h
  | abort => exact h
  | runTimeout _ _ _ =>
    have hopen : pushed s = .open := not_not.1 hreg
    exact emitInline_eventsOk (ended_error ctx hopen _ (by simp))
  | panic _ => exact absurd trivial hreg

/-! ## Whole runs -/

theorem start_eventsOk (ctx : RunCtx) : EventsOk ctx (start ctx) :=
  emitInline_eventsOk ⟨rfl, Or.inl rfl⟩

theorem Ended.unbroken {w : Word} {o : RunOutcome} {stopped : Option RunErrorKind}
    (h : Ended w o stopped) : w ≠ .broken := by
  obtain ⟨t, rfl, _⟩ := h
  simp

theorem AfterSend.Wants.unbroken {w : Word} {state : RunState} {stopped : Option RunErrorKind}
    {k : AfterSend} (h : k.Wants w state stopped) : w ≠ .broken := by
  cases k with
  | started => simp [h.1]
  | turn tc => simp [h.1]
  | completed => simp [h.1]
  | returns o => exact Ended.unbroken h
  | watchdog => exact h.elim
  | exec call => simp [h.1]
  | executed call output => simp [h.1]

theorem Pc.Wants.unbroken {ctx : RunCtx} {w : Word} {state : RunState} {stopped : Option RunErrorKind}
    {pc : Pc} (h : pc.Wants ctx w state stopped) : w ≠ .broken := by
  cases pc with
  | sending ev k =>
    have hl : landed ctx ev w ≠ .broken := AfterSend.Wants.unbroken h
    rintro rfl
    exact hl (by simp [landed, Word.push])
  | opening => simp [h.1]
  | streaming tc => simp [h.1]
  | persisting e k => cases k <;> simp [h.1]
  | toolRunning call => simp [h.1]
  | done o => exact Ended.unbroken h

theorem clientWord_of_eventsOk {ctx : RunCtx} {s : Drive} (h : EventsOk ctx s) : ClientWord s := by
  refine ⟨h.unbroken, ?_⟩
  intro o hpc
  rw [EventsOk, hpc] at h
  obtain ⟨t, hw, hfits⟩ := h
  obtain ⟨_, s₀, mid, e, hevs, hs₀, hmid, he⟩ := wordOf_eq_closed.1 hw
  exact ⟨s₀, mid, e, t, hevs, hs₀, hmid, he, hfits⟩

/-- A run whose steps are all regular keeps the client's word in every state it reaches. -/
theorem run_clientWord {ctx : RunCtx} {acts : List Act} {s : Drive}
    (hreg : Steps.AllSteps (step ctx) (fun s a _ => ¬ Irregular s a) (start ctx) acts)
    (hrun : Steps.exec (step ctx) (start ctx) acts = some s) : ClientWord s := by
  have hstep : ∀ s a t, EventsOk ctx s → ¬ Irregular s a → step ctx s a = some t → EventsOk ctx t :=
    fun _ _ _ h hr hs => step_eventsOk h hr hs
  exact clientWord_of_eventsOk (Steps.exec_guarded hstep (start_eventsOk ctx) hreg hrun)

/-- A run with one turn of text. -/
def plainCtx : RunCtx :=
  { sessionId := "main", runId := "r1", userText := "hi", history := [], compactCfg := .default
    tools := false, runTimeout := true, sink := .conn }

theorem run_clientWord_plain :
    ∃ s, Steps.exec (step plainCtx) (start plainCtx)
        [.sent true, .opened, .delta (.text "ok") "", .sent true, .streamEnd, .sent true, .stored true] =
          some s ∧ s.pc = .done .completed ∧ ClientWord s := by
  have hrun : (Steps.exec (step plainCtx) (start plainCtx)
      [.sent true, .opened, .delta (.text "ok") "", .sent true, .streamEnd, .sent true,
        .stored true]).map (·.pc) = some (.done .completed) := by
    decide
  obtain ⟨s, hs, hpc⟩ := Option.map_eq_some_iff.1 hrun
  refine ⟨s, hs, hpc, run_clientWord ?_ hs⟩
  simp [Steps.AllSteps, Irregular]

/-- A user abort noticed while the model streams is reported as a failure. -/
theorem clientWord_fails_on_abort :
    ¬ ∀ (ctx : RunCtx) (acts : List Act) (s : Drive),
      Steps.exec (step ctx) (start ctx) acts = some s → ClientWord s := by
  intro h
  have hrun : (Steps.exec (step plainCtx) (start plainCtx)
      [.sent true, .opened, .abort, .cancelled, .sent true]).map
        (fun s => (s.pc, s.sent.map (·.1), s.stopped)) =
      some (.done .aborted, [lifecycle plainCtx .start, lifecycle plainCtx (.error "aborted" .failed)],
        some .aborted) := by
    decide
  obtain ⟨s, hs, hfinal⟩ := Option.map_eq_some_iff.1 hrun
  simp only [Prod.mk.injEq] at hfinal
  obtain ⟨hpc, hsent, hstopped⟩ := hfinal
  obtain ⟨first, mid, last, terminal, hevs, _, _, hlast, hfits⟩ := (h _ _ s hs).complete _ hpc
  rw [hsent] at hevs
  have hterm : last = lifecycle plainCtx (.error "aborted" .failed) := by
    have hget := congrArg List.getLast? hevs
    rw [List.getLast?_concat] at hget
    exact Option.some.inj hget.symm
  rw [hterm] at hlast
  rcases hfits with ⟨rfl, _⟩ | ⟨msg, kind, rfl, _, hkind⟩
  · simp [lifecycle, Event.lifecycle?] at hlast
  · simp only [lifecycle, Event.lifecycle?, Option.some.injEq, LifecyclePhase.error.injEq] at hlast
    rw [hstopped, ← hlast.2] at hkind
    simp at hkind

end Run

end OhMyClaw
