import OhMyClaw.Server.RunSpoken

/-!
# What the user saw is what the history holds

Text goes to the sink delta by delta and to the store per turn.  In between it sits in the
driver, as the text carried out of truncated turns and the text of the turn at hand.  For a sink
of any kind and a store that takes every record, `TextAt` says of each program counter how the
text handed to the sink (`heard`) is made of the text stored so far and the text that still
sits in the driver.

    step_textOk                one leg of the driver
    completed_text             a run that ends completed has stored what it handed to the sink
-/

namespace OhMyClaw

namespace Run

/-- The text of the answer in the records. -/
def storedText : List NewEntry → String
  | [] => ""
  | e :: es => e.spoken ++ storedText es

theorem storedText_snoc (es : List NewEntry) (e : NewEntry) :
    storedText (es ++ [e]) = storedText es ++ e.spoken := by
  induction es with
  | nil => simp [storedText]
  | cons f es ih => simp [storedText, ih, String.append_assoc]

/-- The text handed to the sink: that of the events it has taken note of, and of the one it is
asked to take. -/
def heard (ctx : RunCtx) (s : Drive) : String :=
  match s.pc with
  | .sending ev _ => if ctx.sink = .detached then spoken s.events else spoken s.events ++ ev.spoken
  | _ => spoken s.events

/-! ## Where the text is -/

/-- The driver collects the text of a turn. -/
structure Gathering (heard stored : String) (s : Drive) : Prop where
  live : Agent.Live s.state
  text : heard = stored ++ (s.carried ++ s.acc)

/-- All that was said is stored. -/
structure Settled (heard stored : String) (s : Drive) : Prop where
  state : s.state = .awaitingTool
  carried : s.carried = ""
  text : heard = stored

def AfterSend.Text (heard stored : String) (s : Drive) : AfterSend → Prop
  | .started => Gathering heard stored s ∧ s.carried = "" ∧ s.acc = ""
  | .turn _ => Gathering heard stored s
  | .completed => heard = stored ++ (s.carried ++ s.acc)
  | .returns o => o ≠ .completed
  | .watchdog => outcomeOf s.state ≠ .completed
  | .exec _ => Settled heard stored s
  | .executed _ _ => Settled heard stored s

def AfterPersist.Text (heard stored : String) (s : Drive) : AfterPersist → Prop
  | .finish => heard = stored
  | .loopCheck _ => Settled heard stored s
  | .feedBack _ _ => Settled heard stored s

/-- How the text handed to the sink is made up at a program counter. -/
def TextAt (heard stored : String) (s : Drive) : Pc → Prop
  | .sending _ k => k.Text heard stored s
  | .opening => Gathering heard stored s
  | .streaming _ => Gathering heard stored s
  | .persisting e k => k.Text heard (stored ++ e.spoken) s
  | .toolRunning _ => Settled heard stored s
  | .done o => o = .completed → heard = stored

def TextOk (ctx : RunCtx) (s : Drive) : Prop := TextAt (heard ctx s) (storedText s.persisted) s s.pc

/-! ## The legs of the driver -/

section Legs

variable {ctx : RunCtx}

theorem textOk_pc {s : Drive} {pc : Pc} (h : TextOk ctx s) (hpc : s.pc = pc) :
    TextAt (heard ctx s) (storedText s.persisted) s pc := by
  rw [← hpc]
  exact h

/-- Away from a send the text handed over is that of the events. -/
theorem heard_of_events {s : Drive} (h : ∀ ev k, s.pc ≠ .sending ev k) :
    heard ctx s = spoken s.events := by
  unfold heard
  split
  · next ev k hpc => exact absurd hpc (h ev k)
  · rfl

theorem TextAt.congr {heard stored : String} {s t : Drive} {pc : Pc} (h : TextAt heard stored s pc)
    (hstate : t.state = s.state) (hcarried : t.carried = s.carried) (hacc : t.acc = s.acc) :
    TextAt heard stored t pc := by
  cases pc with
  | sending ev k =>
    cases k with
    | started => exact ⟨⟨hstate ▸ h.1.live, hcarried ▸ hacc ▸ h.1.text⟩, hcarried ▸ h.2.1, hacc ▸ h.2.2⟩
    | turn tc => exact ⟨hstate ▸ h.live, hcarried ▸ hacc ▸ h.text⟩
    | completed =>
      show heard = stored ++ (t.carried ++ t.acc)
      rw [hcarried, hacc]
      exact h
    | returns o => exact h
    | watchdog =>
      show outcomeOf t.state ≠ .completed
      rw [hstate]
      exact h
    | exec call => exact ⟨hstate ▸ h.state, hcarried ▸ h.carried, h.text⟩
    | executed call output => exact ⟨hstate ▸ h.state, hcarried ▸ h.carried, h.text⟩
  | opening => exact ⟨hstate ▸ h.live, hcarried ▸ hacc ▸ h.text⟩
  | streaming tc => exact ⟨hstate ▸ h.live, hcarried ▸ hacc ▸ h.text⟩
  | persisting e k =>
    cases k with
    | finish => exact h
    | loopCheck call => exact ⟨hstate ▸ h.state, hcarried ▸ h.carried, h.text⟩
    | feedBack call output => exact ⟨hstate ▸ h.state, hcarried ▸ h.carried, h.text⟩
  | toolRunning call => exact ⟨hstate ▸ h.state, hcarried ▸ h.carried, h.text⟩
  | done o => exact h

/-- Whatever the sink, an event is handed to it when its send begins. -/
theorem emitInline_heard (ev : Event) (k : AfterSend) (s : Drive) :
    heard ctx (emitInline ctx ev k s) = spoken s.events ++ ev.spoken := by
  unfold heard
  rw [emitInline_pc]
  by_cases hsink : ctx.sink = .detached
  · simp [emitInline, hsink, Drive.events, spoken]
  · show (if ctx.sink = .detached then _ else _) = _
    rw [if_neg hsink]
    have hevents : (emitInline ctx ev k s).events = s.events := by
      unfold emitInline
      split
      · next h => exact absurd h hsink
      · rfl
    rw [hevents]

theorem emitInline_textOk {ev : Event} {k : AfterSend} {s : Drive}
    (h : k.Text (spoken s.events ++ ev.spoken) (storedText s.persisted) s) :
    TextOk ctx (emitInline ctx ev k s) := by
  have hs : TextAt (spoken s.events ++ ev.spoken) (storedText s.persisted) s (.sending ev k) := h
  unfold TextOk
  rw [emitInline_heard, emitInline_pc, (emitInline_onward ctx ev k s).persisted]
  apply hs.congr
  · unfold emitInline
    split <;> rfl
  · unfold emitInline
    split <;> rfl
  · unfold emitInline
    split <;> rfl

theorem emitError_textOk {kind : RunErrorKind} {msg : String} {o : RunOutcome} (ho : o ≠ .completed)
    (s : Drive) : TextOk ctx (emitError ctx kind msg (.returns o) s) :=
  emitInline_textOk ho

theorem beginTurn_textOk {s : Drive} (h : Gathering (spoken s.events) (storedText s.persisted) s) :
    TextOk ctx (beginTurn ctx s) :=
  ⟨h.live, h.text⟩

theorem feedBack_textOk {call : ToolCallSpec} {output : String} {s : Drive}
    (h : Settled (spoken s.events) (storedText s.persisted) s) :
    TextOk ctx (feedBack ctx call output s) := by
  apply beginTurn_textOk
  constructor
  · show Agent.Live (Agent.step s.state _ s.acc).1
    rw [h.state]
    exact Or.inl rfl
  · show spoken s.events = storedText s.persisted ++ (s.carried ++ "")
    rw [h.carried, h.text]
    simp

theorem loopCheck_textOk {call : ToolCallSpec} {s : Drive}
    (h : Settled (spoken s.events) (storedText s.persisted) s) : TextOk ctx (loopCheck ctx call s) := by
  unfold loopCheck
  simp only
  split
  · exact emitError_textOk (by simp) _
  · split
    · exact emitError_textOk (by simp) _
    · refine emitInline_textOk ⟨h.state, h.carried, ?_⟩
      show spoken s.events ++ "" = storedText s.persisted
      rw [String.append_empty]
      exact h.text

theorem afterPersist_textOk {k : AfterPersist} {s : Drive}
    (h : k.Text (spoken s.events) (storedText s.persisted) s) : TextOk ctx (afterPersist ctx k s) := by
  cases k with
  | finish => exact fun _ => h
  | loopCheck call => exact loopCheck_textOk h
  | feedBack call output => exact feedBack_textOk h

/-- A record that is skipped has no text. -/
theorem persist_textOk {e : NewEntry} {k : AfterPersist} {s : Drive}
    (h : k.Text (spoken s.events) (storedText s.persisted ++ e.spoken) s) :
    TextOk ctx (persist ctx e k s) := by
  unfold persist
  split
  · next hskip =>
    have hempty : e.spoken = "" := by
      unfold NewEntry.spoken
      rw [hskip.1]
      split <;> rfl
    rw [hempty, String.append_empty] at h
    exact afterPersist_textOk h
  · cases k with
    | finish => exact h
    | loopCheck call => exact ⟨h.state, h.carried, h.text⟩
    | feedBack call output => exact ⟨h.state, h.carried, h.text⟩

theorem persistResult_textOk {call : ToolCallSpec} {output : String} {s : Drive}
    (h : Settled (spoken s.events) (storedText s.persisted) s) :
    TextOk ctx (persistResult ctx call output s) := by
  unfold persistResult
  apply persist_textOk
  have hspoken : (newEntry ctx .tool output none (some call.id)).spoken = "" := rfl
  rw [hspoken, String.append_empty]
  exact h

theorem afterSend_textOk {k : AfterSend} {ok : Bool} {s : Drive}
    (h : k.Text (spoken s.events) (storedText s.persisted) s) : TextOk ctx (afterSend ctx k ok s) := by
  cases k with
  | started =>
    obtain ⟨hgather, hcarried, hacc⟩ := h
    simp only [afterSend]
    split
    · exact beginTurn_textOk hgather
    · -- The client is gone before the first turn: nothing was said.
      intro _
      show spoken s.events = storedText s.persisted
      rw [hgather.text, hcarried, hacc]
      simp
  | turn tc => exact ⟨h.live, h.text⟩
  | completed => exact persist_textOk h
  | returns o => exact fun ho => absurd ho h
  | watchdog => exact emitError_textOk h s
  | exec call =>
    simp only [afterSend]
    split
    · exact ⟨h.state, h.carried, h.text⟩
    · exact persistResult_textOk h
  | executed call output => exact persistResult_textOk h

/-- A stop by an event the live state machine turns into a failure. -/
theorem stopWith_textOk {ev : StepEvent} {o : RunOutcome} {msg : String} {s : Drive}
    (hstep : Agent.step s.state ev s.acc = (.terminal o, [.emitLifecycleError msg]))
    (ho : o ≠ .completed) : TextOk ctx (stopWith ctx ev s) := by
  simp only [stopWith, advance, executeEffects, hstep, List.findSome?_cons, effectEvent]
  exact emitInline_textOk ho

theorem advance_text_textOk {t : String} {tc : PartialCall} {s : Drive}
    (h : Gathering (spoken s.events) (storedText s.persisted) s) :
    TextOk ctx (advance ctx (.modelText t) (.turn tc) s) := by
  simp only [advance, executeEffects, Agent.step_modelText h.live, List.findSome?_cons, effectEvent]
  refine emitInline_textOk ⟨Or.inr rfl, ?_⟩
  show spoken s.events ++ t = storedText s.persisted ++ (s.carried ++ (s.acc ++ t))
  rw [h.text]
  simp [String.append_assoc]

theorem advance_done_textOk {s : Drive} (h : Gathering (spoken s.events) (storedText s.persisted) s) :
    TextOk ctx (advance ctx .modelDone .completed s) := by
  simp only [advance, executeEffects, Agent.step_modelDone h.live, List.findSome?_cons, effectEvent]
  apply emitInline_textOk
  show spoken s.events ++ "" = storedText s.persisted ++ (s.carried ++ (s.acc ++ "" ++ ""))
  rw [h.text]
  simp

theorem toolCallTurn_textOk {tc : PartialCall} {genCallId : String} {s : Drive}
    (h : Gathering (spoken s.events) (storedText s.persisted) s) :
    TextOk ctx (toolCallTurn ctx tc genCallId s) := by
  simp only [toolCallTurn, Agent.step_modelToolCall h.live]
  exact persist_textOk ⟨rfl, rfl, h.text⟩

/-- The text of a truncated turn is carried on; a run that gives up fails. -/
theorem truncatedTurn_textOk {tc : PartialCall} {s : Drive}
    (h : Gathering (spoken s.events) (storedText s.persisted) s) :
    TextOk ctx (truncatedTurn ctx tc s) := by
  simp only [truncatedTurn]
  split
  · exact emitError_textOk (by simp) _
  · apply beginTurn_textOk
    by_cases hacc : s.acc = ""
    · rw [if_pos hacc]
      refine ⟨h.live, ?_⟩
      show spoken s.events = storedText s.persisted ++ (s.carried ++ "")
      rw [h.text, hacc]
    · rw [if_neg hacc]
      refine ⟨h.live, ?_⟩
      show spoken s.events = storedText s.persisted ++ (s.carried ++ s.acc ++ "")
      rw [h.text, String.append_empty]

theorem onDelta_textOk {tc : PartialCall} {d : Delta} {genCallId : String} {s : Drive}
    (hpc : s.pc = .streaming tc) (h : Gathering (spoken s.events) (storedText s.persisted) s) :
    TextOk ctx (onDelta ctx tc d genCallId s) := by
  cases d with
  | text t => exact advance_text_textOk h
  | reasoning r =>
    refine emitInline_textOk ⟨h.live, ?_⟩
    show spoken s.events ++ "" = _
    rw [String.append_empty]
    exact h.text
  | toolCall d => exact ⟨h.live, h.text⟩
  | usage u =>
    simp only [onDelta]
    split
    · show TextAt (heard ctx { s with lastInputTokens := _ }) _ _ s.pc
      rw [hpc, heard_of_events (by simp)]
      exact ⟨h.live, h.text⟩
    · unfold TextOk
      rw [hpc, heard_of_events (by simp [hpc])]
      exact h
  | done reason =>
    cases reason with
    | stop => exact advance_done_textOk h
    | toolUse => exact toolCallTurn_textOk h
    | length => exact truncatedTurn_textOk h

/-! ## A leg -/

/-- What is true while the driver waits for the model. -/
theorem gathering_of_atModel {s : Drive} (h : TextOk ctx s) (hpc : s.pc.AtModel) :
    Gathering (spoken s.events) (storedText s.persisted) s := by
  rcases hpc with hpc | ⟨tc, hpc⟩
  · have hs := textOk_pc h hpc
    rw [heard_of_events (by simp [hpc])] at hs
    exact hs
  · have hs := textOk_pc h hpc
    rw [heard_of_events (by simp [hpc])] at hs
    exact hs

/-- What happens beside the driver is no text of the answer. -/
theorem heard_side (s : Drive) (e : SideEvent) (ok : Bool) :
    heard ctx { s with sent := s.sent ++ [(e.toEvent ctx, ok)] } = heard ctx s := by
  have hevents : spoken (Drive.events { s with sent := s.sent ++ [(e.toEvent ctx, ok)] }) =
      spoken s.events := by
    simp [Drive.events, spoken_append, spoken, (mute_sideEvent ctx e).silent]
  unfold heard
  simp only [hevents]

theorem onSent_textOk {ev : Event} {k : AfterSend} {ok : Bool} {s : Drive} (hpc : s.pc = .sending ev k)
    (h : TextOk ctx s) : TextOk ctx (onSent ctx ev k ok s) := by
  have hs : TextAt (heard ctx s) (storedText s.persisted) s (.sending ev k) := textOk_pc h hpc
  unfold onSent
  by_cases hsink : ctx.sink = .detached
  · have hheard : heard ctx s = spoken s.events := by
      unfold heard
      rw [hpc]
      exact if_pos hsink
    rw [hheard] at hs
    rw [if_pos hsink]
    have hcancel := hs.congr (t := { s with cancelled := s.cancelled || !ok }) rfl rfl rfl
    exact afterSend_textOk hcancel
  · have hheard : heard ctx s = spoken s.events ++ ev.spoken := by
      unfold heard
      rw [hpc]
      exact if_neg hsink
    rw [hheard] at hs
    rw [if_neg hsink]
    have hsent := hs.congr (t := { s with sent := s.sent ++ [(ev, ok)], cancelled := s.cancelled || !ok })
      rfl rfl rfl
    apply afterSend_textOk
    have hevents : spoken (Drive.events { s with sent := s.sent ++ [(ev, ok)] }) =
        spoken s.events ++ ev.spoken := by
      simp [Drive.events, spoken_append, spoken]
    show TextAt (spoken (Drive.events { s with sent := s.sent ++ [(ev, ok)] })) _ _ (.sending ev k)
    rw [hevents]
    exact hsent

/-- One leg keeps the text where it belongs, if the store takes what it is asked to. -/
theorem step_textOk {s t : Drive} {a : Act} (h : TextOk ctx s) (ha : a ≠ .stored false)
    (hstep : step ctx s a = some t) : TextOk ctx t := by
  cases leg_of_step hstep with
  | sent hpc hok => exact onSent_textOk hpc h
  | opened hpc =>
    have hs := gathering_of_atModel h (Or.inl hpc)
    exact ⟨hs.live, hs.text⟩
  | openFailed hpc =>
    have hs := gathering_of_atModel h (Or.inl hpc)
    exact stopWith_textOk (Agent.step_modelError hs.live _ _) (by simp)
  | closed hpc hsink =>
    have hs := gathering_of_atModel h hpc
    exact stopWith_textOk (Agent.step_abort hs.live _) (by simp)
  | delta hpc => exact onDelta_textOk hpc (gathering_of_atModel h (Or.inr ⟨_, hpc⟩))
  | streamErr hpc =>
    have hs := gathering_of_atModel h (Or.inr ⟨_, hpc⟩)
    exact stopWith_textOk (Agent.step_modelError hs.live _ _) (by simp)
  | streamEnd hpc => exact advance_done_textOk (gathering_of_atModel h (Or.inr ⟨_, hpc⟩))
  | cancelled hpc hcancel =>
    have hs := gathering_of_atModel h (Or.inr ⟨_, hpc⟩)
    exact stopWith_textOk (Agent.step_abort hs.live _) (by simp)
  | idle hpc =>
    have hs := gathering_of_atModel h (Or.inr ⟨_, hpc⟩)
    simp only [advance, executeEffects, Agent.step_abort hs.live, List.findSome?_cons, effectEvent]
    exact emitInline_textOk (by simp [AfterSend.Text, outcomeOf])
  | @stored e k ok hpc =>
    obtain rfl : ok = true := by
      cases ok with
      | true => rfl
      | false => exact absurd rfl ha
    have hs := textOk_pc h hpc
    rw [heard_of_events (by simp [hpc])] at hs
    rw [if_pos rfl]
    apply afterPersist_textOk
    show k.Text (spoken s.events) (storedText (s.persisted ++ [e])) _
    rw [storedText_snoc]
    exact hs.congr (t := { s with persisted := s.persisted ++ [e] }) rfl rfl rfl
  | toolDone hpc =>
    have hs := textOk_pc h hpc
    rw [heard_of_events (by simp [hpc])] at hs
    refine emitInline_textOk ⟨hs.state, hs.carried, ?_⟩
    show spoken s.events ++ "" = storedText s.persisted
    rw [String.append_empty]
    exact hs.text
  | side hpumps hok =>
    unfold TextOk
    rw [heard_side]
    exact h.congr rfl rfl rfl
  | abort => exact h.congr rfl rfl rfl
  | runTimeout ht hfirst hpc => exact emitError_textOk (by simp) _
  | panic hpc =>
    intro ho
    simp at ho

/-! ## Whole runs -/

theorem start_textOk : TextOk ctx (start ctx) :=
  emitInline_textOk ⟨⟨Or.inl rfl, rfl⟩, rfl, rfl⟩

theorem exec_textOk {acts : List Act} {s : Drive} (hstore : Act.stored false ∉ acts)
    (hrun : Steps.exec (step ctx) (start ctx) acts = some s) : TextOk ctx s := by
  have hall : ∀ a ∈ acts, a ≠ .stored false := fun a ha h => hstore (h ▸ ha)
  exact Steps.exec_guarded (R := fun _ a _ => a ≠ .stored false)
    (fun _ _ _ h ha hs => step_textOk h ha hs) start_textOk (Steps.AllSteps.of_mem hall _) hrun

end Legs

/-- What a completed run has handed to the sink as its answer, over all its turns, is what it
has stored as its answer. -/
theorem completed_text (ctx : RunCtx) (acts : List Act) (s : Drive)
    (hstore : Act.stored false ∉ acts) (hrun : Steps.exec (step ctx) (start ctx) acts = some s)
    (hdone : s.pc = .done .completed) : storedText s.persisted = spoken (s.sent.map (·.1)) := by
  have htext := textOk_pc (exec_textOk hstore hrun) hdone
  rw [heard_of_events (by simp [hdone])] at htext
  exact (htext rfl).symm

/-- A truncated turn, a tool round and a last turn. -/
def mixedCtx : RunCtx :=
  { sessionId := "main", runId := "r1", userText := "hi", history := [], compactCfg := .default
    tools := true, runTimeout := true, sink := .conn }

def mixedActs : List Act :=
  [.sent true, .opened, .delta (.text "一") "", .sent true, .delta (.done .length) "",
    .opened, .delta (.text "二") "", .sent true,
    .delta (.toolCall { callId := "c1", name := some "sys", argsChunk := "\x7b\x7d" }) "",
    .delta (.done .toolUse) "", .stored true, .sent true, .toolDone .ok "12:00", .sent true, .stored true,
    .opened, .delta (.text "三") "", .sent false, .delta (.text "四") "", .sent true, .streamEnd,
    .sent true, .stored true]

theorem completed_text_mixed :
    ∃ s, Steps.exec (step mixedCtx) (start mixedCtx) mixedActs = some s ∧ s.pc = .done .completed ∧
      s.persisted.map (·.content) = ["一二", "12:00", "三四"] ∧
      storedText s.persisted = spoken (s.sent.map (·.1)) := by
  have hrun : (Steps.exec (step mixedCtx) (start mixedCtx) mixedActs).map
      (fun s => (s.pc, s.persisted.map (·.content))) =
        some (.done .completed, ["一二", "12:00", "三四"]) := by
    decide
  obtain ⟨s, hs, hfinal⟩ := Option.map_eq_some_iff.1 hrun
  simp only [Prod.mk.injEq] at hfinal
  exact ⟨s, hs, hfinal.1, hfinal.2,
    completed_text mixedCtx mixedActs s (by decide) hs hfinal.1⟩

end Run

end OhMyClaw
