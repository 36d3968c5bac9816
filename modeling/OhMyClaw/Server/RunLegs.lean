import OhMyClaw.Server.Run

/-!
# What the legs of the driver leave alone

Only the wait for the model, a refused send and what happens beside the driver touch the
cancel token; only the leg behind a start event waits for a tool; requests and events are
added behind the earlier ones, and only the store's answer adds a record.  `Onward s t` says
so for the pieces a leg is made of, `step_mono` for a whole leg.
-/

namespace OhMyClaw

namespace Run

/-- `t` goes on from `s`: same token, same records, no tool to wait for, and nothing taken back
of what was requested and sent. -/
structure Onward (s t : Drive) : Prop where
  cancelled : t.cancelled = s.cancelled
  persisted : t.persisted = s.persisted
  noTool : ∀ call, t.pc ≠ .toolRunning call
  requests : s.requests <+: t.requests
  sent : s.sent <+: t.sent

/-- Onward from a state that differs in other fields only. -/
theorem Onward.of_same {s s' t : Drive} (h : Onward s' t) (hcancelled : s'.cancelled = s.cancelled)
    (hpersisted : s'.persisted = s.persisted) (hrequests : s'.requests = s.requests)
    (hsent : s'.sent = s.sent) : Onward s t where
  cancelled := h.cancelled.trans hcancelled
  persisted := h.persisted.trans hpersisted
  noTool := h.noTool
  requests := hrequests ▸ h.requests
  sent := hsent ▸ h.sent

@[simp] theorem emitInline_pc (ctx : RunCtx) (ev : Event) (k : AfterSend) (s : Drive) :
    (emitInline ctx ev k s).pc = .sending ev k := by
  unfold emitInline
  split <;> rfl

theorem emitInline_onward (ctx : RunCtx) (ev : Event) (k : AfterSend) (s : Drive) :
    Onward s (emitInline ctx ev k s) := by
  refine { cancelled := ?_, persisted := ?_, noTool := by simp, requests := ?_, sent := ?_ }
  · unfold emitInline
    split <;> rfl
  · unfold emitInline
    split <;> rfl
  · unfold emitInline
    split <;> exact List.prefix_refl _
  · unfold emitInline
    split
    · exact List.prefix_append _ _
    · exact List.prefix_refl _

theorem beginTurn_onward (ctx : RunCtx) (s : Drive) : Onward s (beginTurn ctx s) where
  cancelled := rfl
  persisted := rfl
  noTool := by simp [beginTurn]
  requests := List.prefix_append _ _
  sent := List.prefix_refl _

theorem feedBack_onward (ctx : RunCtx) (call : ToolCallSpec) (output : String) (s : Drive) :
    Onward s (feedBack ctx call output s) :=
  (beginTurn_onward ctx _).of_same rfl rfl rfl rfl

theorem loopCheck_onward (ctx : RunCtx) (call : ToolCallSpec) (s : Drive) :
    Onward s (loopCheck ctx call s) := by
  simp only [loopCheck, emitError]
  split
  · exact (emitInline_onward ctx _ _ _).of_same rfl rfl rfl rfl
  · split
    · exact (emitInline_onward ctx _ _ _).of_same rfl rfl rfl rfl
    · exact (emitInline_onward ctx _ _ _).of_same rfl rfl rfl rfl

/-- The driver stops, or waits for something that is no tool. -/
theorem onward_pc {s : Drive} {pc : Pc} (h : ∀ call, pc ≠ .toolRunning call) :
    Onward s { s with pc } where
  cancelled := rfl
  persisted := rfl
  noTool := h
  requests := List.prefix_refl _
  sent := List.prefix_refl _

theorem afterPersist_onward (ctx : RunCtx) (k : AfterPersist) (s : Drive) :
    Onward s (afterPersist ctx k s) := by
  cases k with
  | finish => exact onward_pc (by simp)
  | loopCheck call => exact loopCheck_onward ctx call s
  | feedBack call output => exact feedBack_onward ctx call output s

theorem persist_onward (ctx : RunCtx) (e : NewEntry) (k : AfterPersist) (s : Drive) :
    Onward s (persist ctx e k s) := by
  unfold persist
  split
  · exact afterPersist_onward ctx k s
  · exact onward_pc (by simp)

theorem afterSend_onward {ctx : RunCtx} {k : AfterSend} (hk : ∀ call, k ≠ .exec call) (ok : Bool)
    (s : Drive) : Onward s (afterSend ctx k ok s) := by
  cases k with
  | started =>
    simp only [afterSend]
    split
    · exact beginTurn_onward ctx s
    · exact onward_pc (by simp)
  | turn tc => exact onward_pc (by simp)
  | completed => exact persist_onward ctx _ _ s
  | returns o => exact onward_pc (by simp)
  | watchdog => exact emitInline_onward ctx _ _ s
  | exec call => exact absurd rfl (hk call)
  | executed call output => exact persist_onward ctx _ _ s

theorem afterSend_exec_onward {ctx : RunCtx} (htools : ¬ ctx.tools = true) (call : ToolCallSpec)
    (ok : Bool) (s : Drive) : Onward s (afterSend ctx (.exec call) ok s) := by
  simp only [afterSend]
  rw [if_neg htools]
  exact persist_onward ctx _ _ s

theorem afterSend_exec {ctx : RunCtx} (htools : ctx.tools = true) (call : ToolCallSpec) (ok : Bool)
    (s : Drive) :
    afterSend ctx (.exec call) ok s = { s with pumps := true, pc := .toolRunning call } := by
  simp only [afterSend]
  rw [if_pos htools]

theorem executeEffects_onward {ctx : RunCtx} {effects : List Effect} {k : AfterSend}
    (hk : ∀ call, k ≠ .exec call) (s : Drive) : Onward s (executeEffects ctx effects k s) := by
  simp only [executeEffects]
  split
  · exact (emitInline_onward ctx _ _ _).of_same rfl rfl rfl rfl
  · exact (afterSend_onward hk true _).of_same rfl rfl rfl rfl

theorem advance_onward {ctx : RunCtx} {ev : StepEvent} {k : AfterSend} (hk : ∀ call, k ≠ .exec call)
    (s : Drive) : Onward s (advance ctx ev k s) :=
  (executeEffects_onward hk _).of_same rfl rfl rfl rfl

theorem stopWith_onward (ctx : RunCtx) (ev : StepEvent) (s : Drive) :
    Onward s (stopWith ctx ev s) :=
  advance_onward (by simp) s

theorem toolCallTurn_onward (ctx : RunCtx) (tc : PartialCall) (genCallId : String) (s : Drive) :
    Onward s (toolCallTurn ctx tc genCallId s) :=
  (persist_onward ctx _ _ _).of_same rfl rfl rfl rfl

theorem truncatedTurn_onward (ctx : RunCtx) (tc : PartialCall) (s : Drive) :
    Onward s (truncatedTurn ctx tc s) := by
  simp only [truncatedTurn, emitError]
  split
  · exact (emitInline_onward ctx _ _ _).of_same rfl rfl rfl rfl
  · by_cases hacc : s.acc = ""
    · simp only [hacc, if_true]
      exact (beginTurn_onward ctx _).of_same rfl rfl rfl rfl
    · simp only [hacc, if_false]
      exact (beginTurn_onward ctx _).of_same rfl rfl rfl rfl

theorem onDelta_onward {ctx : RunCtx} {tc : PartialCall} (d : Delta) (genCallId : String) {s : Drive}
    (hpc : s.pc = .streaming tc) : Onward s (onDelta ctx tc d genCallId s) := by
  cases d with
  | text t => exact advance_onward (by simp) s
  | reasoning r => exact (emitInline_onward ctx _ _ _).of_same rfl rfl rfl rfl
  | toolCall d => exact onward_pc (by simp)
  | usage u =>
    have hsame : ∀ call, s.pc ≠ .toolRunning call := by simp [hpc]
    simp only [onDelta]
    split
    · exact ⟨rfl, rfl, hsame, List.prefix_refl _, List.prefix_refl _⟩
    · exact ⟨rfl, rfl, hsame, List.prefix_refl _, List.prefix_refl _⟩
  | done r =>
    cases r with
    | toolUse => exact toolCallTurn_onward ctx tc genCallId s
    | length => exact truncatedTurn_onward ctx tc s
    | stop => exact advance_onward (by simp) s

/-- The sink's answer goes into the record of a connection; what follows goes on from there. -/
theorem onSent_onward {ctx : RunCtx} {k : AfterSend} (ev : Event) (ok : Bool) (s : Drive)
    (hk : (∀ call, k ≠ .exec call) ∨ ¬ ctx.tools = true) :
    ∃ s', Onward s' (onSent ctx ev k ok s) ∧ s'.cancelled = (s.cancelled || !ok) ∧
      s'.persisted = s.persisted ∧ s'.requests = s.requests ∧ s.sent <+: s'.sent := by
  unfold onSent
  have hafter (s' : Drive) : Onward s' (afterSend ctx k ok s') := by
    by_cases he : ∃ call, k = .exec call
    · obtain ⟨call, rfl⟩ := he
      rcases hk with hk | htools
      · exact absurd rfl (hk call)
      · exact afterSend_exec_onward htools call ok s'
    · exact afterSend_onward (fun call hc => he ⟨call, hc⟩) ok s'
  refine ⟨_, hafter _, ?_, ?_, ?_, ?_⟩
  · split <;> rfl
  · split <;> rfl
  · split <;> rfl
  · split
    · exact List.prefix_refl _
    · exact List.prefix_append _ _

/-! ## Whole legs -/

/-- Whatever a leg does, nobody takes the token back, and requests and events are only added. -/
structure Mono (s t : Drive) : Prop where
  cancelled : s.cancelled = true → t.cancelled = true
  requests : s.requests <+: t.requests
  sent : s.sent <+: t.sent

theorem Onward.mono {s s' t : Drive} (h : Onward s' t)
    (hcancelled : s.cancelled = true → s'.cancelled = true) (hrequests : s'.requests = s.requests)
    (hsent : s.sent <+: s'.sent) : Mono s t where
  cancelled hs := h.cancelled.trans (hcancelled hs)
  requests := hrequests ▸ h.requests
  sent := hsent.trans h.sent

theorem step_mono {ctx : RunCtx} {s t : Drive} {a : Act} (h : step ctx s a = some t) : Mono s t := by
  have hsame (pc : Pc) (stopped : Option RunErrorKind) : Mono s { s with pc, stopped } :=
    ⟨id, List.prefix_refl _, List.prefix_refl _⟩
  cases leg_of_step h with
  | @sent ev k ok hpc hok =>
    by_cases hexec : ∃ call, k = .exec call ∧ ctx.tools = true
    · obtain ⟨call, rfl, htools⟩ := hexec
      rw [onSent, afterSend_exec htools]
      refine ⟨fun hs => ?_, ?_, ?_⟩
      · by_cases hsink : ctx.sink = .detached
        · simp [hsink, hs]
        · simp [hsink, hs]
      · split <;> exact List.prefix_refl _
      · split
        · exact List.prefix_refl _
        · exact List.prefix_append _ _
    · have hk : (∀ call, k ≠ .exec call) ∨ ¬ ctx.tools = true := by
        by_cases htools : ctx.tools = true
        · exact Or.inl fun call hc => hexec ⟨call, hc, htools⟩
        · exact Or.inr htools
      obtain ⟨s', hs', hcancelled, -, hrequests, hsent⟩ := onSent_onward ev ok s hk
      exact hs'.mono (fun hs => by rw [hcancelled, hs, Bool.true_or]) hrequests hsent
  | opened hpc => exact hsame _ _
  | openFailed hpc => exact (stopWith_onward ctx _ _).mono id rfl (List.prefix_refl _)
  | closed hpc hsink => exact (stopWith_onward ctx _ _).mono (fun _ => rfl) rfl (List.prefix_refl _)
  | delta hpc => exact (onDelta_onward _ _ hpc).mono id rfl (List.prefix_refl _)
  | streamErr hpc => exact (stopWith_onward ctx _ _).mono id rfl (List.prefix_refl _)
  | streamEnd hpc => exact (advance_onward (by simp) s).mono id rfl (List.prefix_refl _)
  | cancelled hpc hcancel => exact (stopWith_onward ctx _ _).mono id rfl (List.prefix_refl _)
  | idle hpc => exact (advance_onward (by simp) _).mono (fun _ => rfl) rfl (List.prefix_refl _)
  | @stored e k ok hpc =>
    cases ok with
    | true => exact (afterPersist_onward ctx k _).mono id rfl (List.prefix_refl _)
    | false => exact (afterPersist_onward ctx k _).mono id rfl (List.prefix_refl _)
  | toolDone hpc => exact (emitInline_onward ctx _ _ s).mono id rfl (List.prefix_refl _)
  | side hpumps hok => exact ⟨id, List.prefix_refl _, List.prefix_append _ _⟩
  | abort => exact ⟨fun _ => rfl, List.prefix_refl _, List.prefix_refl _⟩
  | runTimeout ht hfirst hpc =>
    exact (emitInline_onward ctx _ _ _).mono (fun _ => rfl) rfl (List.prefix_refl _)
  | panic hpc => exact hsame _ _

end Run

end OhMyClaw
