import Mathlib.Data.List.Basic

/-!
# The diagnostics slot of a session

What the actor and its run write down for observation; the health scan reads the time of
the last progress back from it.  Times are milliseconds.  The phase, the counters and the
last texts are left out: nothing modelled reads them.
-/

namespace OhMyClaw

structure RunLive where
  runId : String
  startedAt : Nat
  lastDeltaAt : Option Nat
deriving DecidableEq, Repr

structure DiagState where
  queueDepth : Nat
  active : Option RunLive
  laneBusySince : Option Nat
deriving DecidableEq, Repr

namespace DiagState

def default : DiagState := { queueDepth := 0, active := none, laneBusySince := none }

def setQueueDepth (d : DiagState) (n : Nat) : DiagState := { d with queueDepth := n }

def runStart (d : DiagState) (runId : String) (now : Nat) : DiagState :=
  { d with laneBusySince := some now, active := some { runId, startedAt := now, lastDeltaAt := none } }

/-- The run has shown progress. -/
def progress (d : DiagState) (now : Nat) : DiagState :=
  { d with active := d.active.map fun r => { r with lastDeltaAt := some now } }

/-- Seconds since the last progress; none without a run or before its first progress. -/
def idleSecs (d : DiagState) (now : Nat) : Option Nat :=
  (d.active.bind (·.lastDeltaAt)).map fun t => (now - t) / 1000

def runDone (d : DiagState) : DiagState := { d with active := none, laneBusySince := none }

def compactStart (d : DiagState) (now : Nat) : DiagState := d.runStart "compact" now

def compactDone (d : DiagState) : DiagState := d.runDone

end DiagState

end OhMyClaw
