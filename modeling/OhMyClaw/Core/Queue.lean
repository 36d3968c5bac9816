import Mathlib.Data.List.Basic

/-!
# The run queue and the stall diagnosis

At most one run of a session is active; further turns wait in order, up to a cap.
-/

namespace OhMyClaw

structure QueuedTurn where
  runId : String
  text : String
deriving DecidableEq, Repr

structure RunQueue where
  active : Option String
  pending : List QueuedTurn
  cap : Nat
deriving DecidableEq, Repr

inductive SubmitResult where
  | started (turn : QueuedTurn)
  | queued
  | rejected
deriving DecidableEq, Repr

namespace RunQueue

def new (cap : Nat) : RunQueue := { active := none, pending := [], cap }

/-- A turn becomes active if none is, otherwise it waits if there is room. -/
def submit (q : RunQueue) (turn : QueuedTurn) : RunQueue × SubmitResult :=
  if q.active = none then ({ q with active := some turn.runId }, .started turn)
  else if q.cap ≤ q.pending.length then (q, .rejected)
  else ({ q with pending := q.pending ++ [turn] }, .queued)

/-- The active run has ended; the next turn, if there is one, becomes active. -/
def completeActive (q : RunQueue) : RunQueue × Option QueuedTurn :=
  match q.pending with
  | next :: rest => ({ q with active := some next.runId, pending := rest }, some next)
  | [] => ({ q with active := none }, none)

/-- Forget the waiting turns; answers how many there were. -/
def drainPending (q : RunQueue) : RunQueue × Nat :=
  ({ q with pending := [] }, q.pending.length)

def pendingIds (q : RunQueue) : List String := q.pending.map (·.runId)

end RunQueue

inductive RunHealth where
  | healthy | longRunning | stuck
deriving DecidableEq, Repr

/-- Judge a run by how long it has shown no progress. -/
def diagnose (idleSecs warnSecs abortMinSecs : Nat) : RunHealth :=
  if idleSecs < warnSecs then .healthy
  else if abortMinSecs ≤ idleSecs ∧ warnSecs * 3 ≤ idleSecs then .stuck
  else .longRunning

end OhMyClaw
