import Mathlib.Data.List.AList
import OhMyClaw.Core.Agent
import OhMyClaw.Core.Queue
import OhMyClaw.Lib.Steps
import OhMyClaw.Server.Diag

/-!
# The session actor

One actor serves one session and handles one command after the other.  It owns the run
queue, the active run with its cancel token, the sinks of turns that wait for the lane and
the event logs of detached runs.  `handle` is one turn of its loop; `step` adds what the
surroundings guarantee: run ids are drawn fresh, and an evicted actor handles nothing.

A run's own work is not here: the actor sees it as the command `finished`, and as the
progress, the token changes and the terminal event of the run's task in between.
-/

namespace OhMyClaw

/-- Where a run's events go; connections and event logs are known by number. -/
inductive RunSink where
  | conn (tx : Nat)
  | broadcast
  | detached (tx log : Nat)
deriving DecidableEq, Repr

structure ActiveRun where
  runId : String
  /-- The cancel token of the run. -/
  cancelled : Bool
  startedAt : Nat
deriving DecidableEq, Repr

/-- The bounds the actor goes by. -/
structure ActorCfg where
  queueCap : Nat
  warnSecs : Nat
  abortMinSecs : Nat
deriving DecidableEq, Repr

/-- The bounds the tests of the source use. -/
def testCfg : ActorCfg := { queueCap := 8, warnSecs := 60, abortMinSecs := 300 }

abbrev IdMap (β : Type) := AList fun _ : String => β

theorem IdMap.of_lookup_insert {β : Type} {m : IdMap β} {k k' : String} {v b : β}
    (h : (AList.insert k v m).lookup k' = some b) : k' = k ∧ b = v ∨ k' ≠ k ∧ m.lookup k' = some b := by
  by_cases hk : k' = k
  · subst hk
    rw [AList.lookup_insert] at h
    exact Or.inl ⟨rfl, (Option.some.inj h).symm⟩
  · rw [AList.lookup_insert_ne hk] at h
    exact Or.inr ⟨hk, h⟩

theorem IdMap.of_lookup_erase {β : Type} {m : IdMap β} {k k' : String} {b : β}
    (h : (AList.erase k m).lookup k' = some b) : k' ≠ k ∧ m.lookup k' = some b := by
  by_cases hk : k' = k
  · subst hk
    rw [AList.lookup_erase] at h
    simp at h
  · rw [AList.lookup_erase_ne hk] at h
    exact ⟨hk, h⟩

structure Actor where
  queue : RunQueue
  active : Option ActiveRun
  sinks : IdMap RunSink
  runLogs : IdMap Nat
  lastActivity : Nat
  diag : DiagState
  /-- The actor has left its loop. -/
  closed : Bool
  /-- History: the run ids drawn. -/
  issued : List String
  /-- History: the run ids returned to a submitter. -/
  accepted : List String
  /-- History: the runs started, each with the sink it was given. -/
  started : List (String × RunSink)
  /-- History: the runs that pushed a terminal event to their sink. -/
  terminals : List String
deriving DecidableEq

/-- The commands, with what the actor reads off the clock, and the changes a run's task makes
beside it. -/
inductive Cmd where
  | submit (runId text : String) (sink : RunSink) (now : Nat)
  | abort (runId : String) (hard : Bool)
  | compact (start : Nat)
  | finished (runId : String) (outcome : RunOutcome) (now : Nat)
  | resume (runId : String)
  | healthScan (now : Nat)
  | evictIfIdle (idleAfter now : Nat)
  | runProgress (now : Nat)
  | runCancels
  | runTerminal
deriving DecidableEq, Repr

namespace Actor

def new (cfg : ActorCfg) (now : Nat) : Actor :=
  { queue := .new cfg.queueCap, active := none, sinks := ∅, runLogs := ∅, lastActivity := now
    diag := .default, closed := false, issued := [], accepted := [], started := []
    terminals := [] }

def startedIds (a : Actor) : List String := a.started.map (·.1)

/-- A turn takes the lane: its sink is taken out of the parked ones. -/
def beginRun (a : Actor) (turn : QueuedTurn) (now : Nat) : Actor :=
  { a with
    diag := a.diag.runStart turn.runId now
    started := a.started ++ [(turn.runId, (a.sinks.lookup turn.runId).getD .broadcast)]
    sinks := a.sinks.erase turn.runId
    active := some { runId := turn.runId, cancelled := false, startedAt := now } }

/-- Set the token of the active run. -/
def cancelActive (a : Actor) : Actor :=
  { a with active := a.active.map fun r => { r with cancelled := true } }

/-- Park the sink of a turn; a detached one brings its event log. -/
def park (a : Actor) (runId : String) (sink : RunSink) : Actor :=
  { a with
    sinks := a.sinks.insert runId sink
    runLogs := match sink with
      | .detached _ log => a.runLogs.insert runId log
      | _ => a.runLogs }

def onSubmit (a : Actor) (runId text : String) (sink : RunSink) (now : Nat) : Actor :=
  let a := { (a.park runId sink) with lastActivity := now, issued := a.issued ++ [runId] }
  let r := a.queue.submit { runId, text }
  match r.2 with
  | .started turn =>
    beginRun { a with queue := r.1, accepted := a.accepted ++ [runId] } turn now
  | .queued =>
    { a with
      queue := r.1, accepted := a.accepted ++ [runId]
      diag := a.diag.setQueueDepth r.1.pending.length }
  | .rejected =>
    { a with queue := r.1, sinks := a.sinks.erase runId, runLogs := a.runLogs.erase runId }

def onAbort (a : Actor) (runId : String) (hard : Bool) : Actor :=
  let a := if hard then { a with queue := a.queue.drainPending.1 } else a
  match a.active with
  | some r => if r.runId = runId ∨ runId = "" then a.cancelActive else a
  | none => a

def onFinished (a : Actor) (runId : String) (now : Nat) : Actor :=
  let a := { a with lastActivity := now }
  if a.active.map (·.runId) = some runId then
    let r := a.queue.completeActive
    let a :=
      { a with
        diag := a.diag.runDone, active := none, sinks := a.sinks.erase runId
        runLogs := a.runLogs.erase runId, queue := r.1 }
    match r.2 with
    | some next => beginRun { a with diag := a.diag.setQueueDepth r.1.pending.length } next now
    | none => a
  else a

def onHealthScan (cfg : ActorCfg) (a : Actor) (now : Nat) : Actor :=
  match a.active with
  | some r =>
    let elapsed := (now - r.startedAt) / 1000
    match diagnose ((a.diag.idleSecs now).getD elapsed) cfg.warnSecs cfg.abortMinSecs with
    | .stuck => a.cancelActive
    | _ => a
  | none => a

def onEvictIfIdle (a : Actor) (idleAfter now : Nat) : Actor :=
  if a.active.isSome ∨ 0 < a.queue.pending.length ∨ now - a.lastActivity < idleAfter then a
  else { a with closed := true }

/-- One turn of the actor's loop. -/
def handle (cfg : ActorCfg) (a : Actor) : Cmd → Actor
  | .submit runId text sink now => a.onSubmit runId text sink now
  | .abort runId hard => a.onAbort runId hard
  | .compact start =>
    { a with lastActivity := start, diag := (a.diag.compactStart start).compactDone }
  | .finished runId _ now => a.onFinished runId now
  | .resume _ => a
  | .healthScan now => onHealthScan cfg a now
  | .evictIfIdle idleAfter now => a.onEvictIfIdle idleAfter now
  | .runProgress now => { a with diag := a.diag.progress now }
  | .runCancels => a.cancelActive
  -- only a run's task holds its sink, the actor itself tells a client nothing
  | .runTerminal =>
    match a.active with
    | some r => { a with terminals := a.terminals ++ [r.runId] }
    | none => a

/-- What is promised of a command: a run id is not empty and was never drawn before. -/
def Admissible (a : Actor) : Cmd → Bool
  | .submit runId _ _ _ => runId ≠ "" && !a.issued.contains runId
  | _ => true

def step (cfg : ActorCfg) (a : Actor) (c : Cmd) : Option Actor :=
  if !a.closed && Admissible a c then some (handle cfg a c) else none

end Actor

end OhMyClaw
