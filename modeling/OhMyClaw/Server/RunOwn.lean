import OhMyClaw.Proto.Frame
import OhMyClaw.Server.Run

/-!
# Whose events they are

Whatever a run sends names the session and the run: so it is before the first step (`start_owns`),
and every step keeps it (`step_owns`).
-/

namespace OhMyClaw

/-- The session an event belongs to. -/
def Event.sessionId : Event → String
  | .lifecycle s _ _ => s
  | .assistant s _ _ => s
  | .reasoning s _ _ => s
  | .tool s _ _ _ => s
  | .approval s _ _ _ _ => s
  | .userInput s _ _ _ => s

namespace Run

variable {ctx : RunCtx}

def Own (ctx : RunCtx) (e : Event) : Prop :=
  e.sessionId = ctx.sessionId ∧ e.runId = ctx.runId

theorem own_lifecycle (phase : LifecyclePhase) : Own ctx (lifecycle ctx phase) := ⟨rfl, rfl⟩

theorem own_sideEvent (e : SideEvent) : Own ctx (e.toEvent ctx) := by
  cases e <;> exact ⟨rfl, rfl⟩

theorem own_effect {e : Effect} {ev : Event} (h : effectEvent ctx e = some ev) : Own ctx ev := by
  cases e <;> cases h <;> exact ⟨rfl, rfl⟩

def OwnSent (ctx : RunCtx) (s : Drive) : Prop := ∀ p ∈ s.sent, Own ctx p.1

/-- What was sent is the run's own, and so is what is being sent. -/
structure Owns (ctx : RunCtx) (s : Drive) : Prop where
  sent : OwnSent ctx s
  sending : ∀ ev k, s.pc = .sending ev k → Own ctx ev

/-- Nothing is being sent. -/
theorem OwnSent.owns {s : Drive} (h : OwnSent ctx s) (hpc : ∀ ev k, s.pc ≠ .sending ev k) : Owns ctx s :=
  ⟨h, fun ev k heq => absurd heq (hpc ev k)⟩

variable {s : Drive}

theorem emitInline_owns {ev : Event} (h : OwnSent ctx s) (hev : Own ctx ev) (k : AfterSend) :
    Owns ctx (emitInline ctx ev k s) := by
  unfold emitInline
  split
  · refine ⟨fun p hp => ?_, fun ev' k' heq => ?_⟩
    · obtain hp | hp := List.mem_append.1 hp
      · exact h p hp
      · obtain rfl := List.mem_singleton.1 hp
        exact hev
    · obtain ⟨rfl, -⟩ := Pc.sending.inj heq
      exact hev
  · refine ⟨h, fun ev' k' heq => ?_⟩
    obtain ⟨rfl, -⟩ := Pc.sending.inj heq
    exact hev

theorem emitError_owns (h : OwnSent ctx s) (kind : RunErrorKind) (msg : String) (k : AfterSend) :
    Owns ctx (emitError ctx kind msg k s) :=
  emitInline_owns h (own_lifecycle _) k

theorem beginTurn_owns (h : OwnSent ctx s) : Owns ctx (beginTurn ctx s) :=
  OwnSent.owns h (by simp [beginTurn])

theorem loopCheck_owns (h : OwnSent ctx s) (call : ToolCallSpec) : Owns ctx (loopCheck ctx call s) := by
  have hevent : Own ctx (.tool ctx.sessionId ctx.runId call.id (.start call.name call.args)) := ⟨rfl, rfl⟩
  simp only [loopCheck]
  split
  · refine emitError_owns ?_ _ _ _
    exact h
  · split
    · refine emitError_owns ?_ _ _ _
      exact h
    · refine emitInline_owns ?_ hevent _
      exact h

theorem afterPersist_owns (h : OwnSent ctx s) (k : AfterPersist) : Owns ctx (afterPersist ctx k s) := by
  cases k with
  | finish => exact OwnSent.owns h (by simp [afterPersist])
  | loopCheck call => exact loopCheck_owns h call
  | feedBack call output => exact beginTurn_owns h

theorem persist_owns (h : OwnSent ctx s) (e : NewEntry) (k : AfterPersist) : Owns ctx (persist ctx e k s) := by
  unfold persist
  split
  · exact afterPersist_owns h k
  · exact OwnSent.owns h (by simp)

theorem afterSend_owns (h : OwnSent ctx s) (k : AfterSend) (ok : Bool) : Owns ctx (afterSend ctx k ok s) := by
  cases k with
  | started =>
    simp only [afterSend]
    split
    · exact beginTurn_owns h
    · exact OwnSent.owns h (by simp)
  | turn tc => exact OwnSent.owns h (by simp [afterSend])
  | completed => exact persist_owns h _ _
  | returns o => exact OwnSent.owns h (by simp [afterSend])
  | watchdog => exact emitError_owns h _ _ _
  | exec call =>
    simp only [afterSend]
    split
    · exact OwnSent.owns h (by simp)
    · exact persist_owns h _ _
  | executed call output => exact persist_owns h _ _

theorem advance_owns (h : OwnSent ctx s) (ev : StepEvent) (k : AfterSend) : Owns ctx (advance ctx ev k s) := by
  simp only [advance, executeEffects]
  split
  · next ev' heq =>
    obtain ⟨e, -, he⟩ := List.exists_of_findSome?_eq_some heq
    refine emitInline_owns ?_ (own_effect he) _
    exact h
  · refine afterSend_owns ?_ _ _
    exact h

theorem truncatedTurn_owns (h : OwnSent ctx s) (tc : PartialCall) : Owns ctx (truncatedTurn ctx tc s) := by
  simp only [truncatedTurn]
  split
  · refine emitError_owns ?_ _ _ _
    exact h
  · refine beginTurn_owns ?_
    by_cases hacc : s.acc = ""
    · simp only [hacc, if_true]
      exact h
    · simp only [hacc, if_false]
      exact h

theorem onDelta_owns (h : Owns ctx s) (tc : PartialCall) (d : Delta) (genCallId : String) :
    Owns ctx (onDelta ctx tc d genCallId s) := by
  cases d with
  | text t => exact advance_owns h.sent _ _
  | reasoning r =>
    have hevent : Own ctx (.reasoning ctx.sessionId ctx.runId r) := ⟨rfl, rfl⟩
    refine emitInline_owns ?_ hevent _
    exact h.sent
  | toolCall d => exact OwnSent.owns h.sent (by simp [onDelta])
  | usage u =>
    simp only [onDelta]
    split
    · exact ⟨h.sent, h.sending⟩
    · exact h
  | done r =>
    cases r with
    | toolUse =>
      refine persist_owns ?_ _ _
      exact h.sent
    | length => exact truncatedTurn_owns h.sent tc
    | stop => exact advance_owns h.sent _ _

theorem onSent_owns {ev : Event} {k : AfterSend} (h : Owns ctx s) (hpc : s.pc = .sending ev k) (ok : Bool) :
    Owns ctx (onSent ctx ev k ok s) := by
  refine afterSend_owns (fun p hp => ?_) k ok
  split at hp
  · exact h.sent p hp
  · obtain hp | hp := List.mem_append.1 hp
    · exact h.sent p hp
    · obtain rfl := List.mem_singleton.1 hp
      exact h.sending ev k hpc

theorem step_owns {t : Drive} {a : Act} (h : Owns ctx s) (hstep : step ctx s a = some t) : Owns ctx t := by
  cases leg_of_step hstep with
  | sent hpc hok => exact onSent_owns h hpc _
  | opened hpc => exact OwnSent.owns h.sent (by simp)
  | openFailed hpc | closed hpc hsink | streamErr hpc | cancelled hpc hcancel =>
    refine advance_owns ?_ _ _
    exact h.sent
  | delta hpc => exact onDelta_owns h _ _ _
  | streamEnd hpc | idle hpc =>
    refine advance_owns ?_ _ _
    exact h.sent
  | @stored e k ok hpc =>
    refine afterPersist_owns ?_ k
    cases ok <;> exact h.sent
  | @toolDone call status content hpc =>
    have hevent : Own ctx (.tool ctx.sessionId ctx.runId call.id (.end status)) := ⟨rfl, rfl⟩
    exact emitInline_owns h.sent hevent _
  | @side e ok hpumps hok =>
    refine ⟨fun p hp => ?_, h.sending⟩
    obtain hp | hp := List.mem_append.1 hp
    · exact h.sent p hp
    · obtain rfl := List.mem_singleton.1 hp
      exact own_sideEvent e
  | abort => exact ⟨h.sent, h.sending⟩
  | runTimeout ht hfirst hpc =>
    refine emitError_owns ?_ _ _ _
    exact h.sent
  | panic hpc => exact OwnSent.owns h.sent (by simp)

theorem start_owns (ctx : RunCtx) : Owns ctx (start ctx) :=
  advance_owns (fun _ hp => by cases hp) _ _

end Run

end OhMyClaw
