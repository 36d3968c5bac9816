import Mathlib.Data.List.Basic

/-!
# The agent state machine

`step state event acc` returns the next state and the effects the driver is asked to
carry out; it carries out none itself.  Pairs of state and event without a rule keep
the state and ask for nothing.
-/

namespace OhMyClaw

/-- The normalised end of a run. -/
inductive RunOutcome where
  | completed
  | aborted
  | failed (msg : String)
  | panicked
  | loopDetected
deriving DecidableEq, Repr

inductive RunState where
  | idle
  | awaitingModel
  | streaming
  | awaitingTool
  | terminal (outcome : RunOutcome)
deriving DecidableEq, Repr

inductive StepEvent where
  | start
  | modelText (t : String)
  | modelToolCall (callId name args : String)
  | modelDone
  | modelLength
  | modelError (msg : String)
  | abort
  | toolResult (callId output : String)
deriving DecidableEq, Repr

inductive Effect where
  | callModel
  | emitAssistant (t : String)
  | execTool (callId name args : String)
  | emitLifecycleStart
  | emitLifecycleEnd
  | emitLifecycleError (msg : String)
  | persistAssistant (full : String)
deriving DecidableEq, Repr

namespace Agent

open RunState Effect

/-- The pure step; `acc` is the assistant text accumulated in this turn. -/
def step (state : RunState) (event : StepEvent) (acc : String) : RunState × List Effect :=
  match state, event with
  | idle, .start => (awaitingModel, [emitLifecycleStart, callModel])
  | awaitingModel, .modelText t => (streaming, [emitAssistant t])
  | streaming, .modelText t => (streaming, [emitAssistant t])
  | awaitingModel, .modelDone => (terminal .completed, [persistAssistant acc, emitLifecycleEnd])
  | streaming, .modelDone => (terminal .completed, [persistAssistant acc, emitLifecycleEnd])
  | awaitingModel, .modelLength => (terminal .completed, [persistAssistant acc, emitLifecycleEnd])
  | streaming, .modelLength => (terminal .completed, [persistAssistant acc, emitLifecycleEnd])
  | awaitingModel, .modelToolCall c n a => (awaitingTool, [execTool c n a])
  | streaming, .modelToolCall c n a => (awaitingTool, [execTool c n a])
  | awaitingTool, .toolResult _ _ => (awaitingModel, [callModel])
  | terminal o, _ => (terminal o, [])
  | _, .abort => (terminal .aborted, [emitLifecycleError "aborted"])
  | _, .modelError msg => (terminal (.failed msg), [emitLifecycleError msg])
  | s, _ => (s, [])

/-- The run still waits for the model in this turn. -/
def Live (s : RunState) : Prop := s = awaitingModel ∨ s = streaming

theorem step_modelText {s : RunState} (h : Live s) (t acc : String) :
    step s (.modelText t) acc = (streaming, [emitAssistant t]) := by
  rcases h with rfl | rfl <;> rfl

theorem step_modelDone {s : RunState} (h : Live s) (acc : String) :
    step s .modelDone acc = (terminal .completed, [persistAssistant acc, emitLifecycleEnd]) := by
  rcases h with rfl | rfl <;> rfl

theorem step_modelToolCall {s : RunState} (h : Live s) (c n a acc : String) :
    step s (.modelToolCall c n a) acc = (awaitingTool, [execTool c n a]) := by
  rcases h with rfl | rfl <;> rfl

theorem step_abort {s : RunState} (h : Live s) (acc : String) :
    step s .abort acc = (terminal .aborted, [emitLifecycleError "aborted"]) := by
  rcases h with rfl | rfl <;> rfl

theorem step_modelError {s : RunState} (h : Live s) (msg acc : String) :
    step s (.modelError msg) acc = (terminal (.failed msg), [emitLifecycleError msg]) := by
  rcases h with rfl | rfl <;> rfl

/-- A terminal state is final: nothing moves it and nothing more is asked for. -/
theorem step_terminal (o : RunOutcome) (e : StepEvent) (acc : String) :
    step (terminal o) e acc = (terminal o, []) := by
  cases e <;> rfl

end Agent

/-- The outcome a driver reports for a state; a run that is not in a terminal state counts
as completed. -/
def outcomeOf : RunState → RunOutcome
  | .terminal o => o
  | _ => .completed

end OhMyClaw
