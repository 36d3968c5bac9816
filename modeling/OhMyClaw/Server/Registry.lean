import OhMyClaw.Lib.Steps
import OhMyClaw.Server.Session

/-!
# The registry of sessions

Every session has an actor of its own, spawned when the session is first asked for.  An abort
does not name a session: it is broadcast, and each actor decides alone what concerns it.

An abort with a run id is meant to leave the other sessions alone.  A soft one does.  A hard
one empties the queue of every session, so it leaves the others alone exactly if nothing waits
in them.

    abortAll_frame_iff          when an abort leaves the sessions it does not concern as they were
    abortAll_frame_fails        two sessions and an abort where it does not
-/

namespace OhMyClaw

/-- Apply `f` to every value. -/
def IdMap.mapValues {β : Type} (f : β → β) (m : IdMap β) : IdMap β where
  entries := m.entries.map fun e => ⟨e.1, f e.2⟩
  nodupKeys := by
    simpa [List.NodupKeys, List.keys, Function.comp_def] using m.nodupKeys

@[simp] theorem IdMap.lookup_mapValues {β : Type} (f : β → β) (m : IdMap β) (k : String) :
    AList.lookup k (m.mapValues f) = (AList.lookup k m).map f := by
  simp only [AList.lookup, mapValues]
  induction m.entries with
  | nil => rfl
  | cons e l ih =>
    obtain ⟨x, b⟩ := e
    by_cases h : x = k
    · subst h
      simp
    · simpa [List.dlookup_cons_ne, Ne.symm h] using ih

namespace Actor

/-- A command sent to an actor that has left its loop is dropped. -/
def receive (cfg : ActorCfg) (a : Actor) (c : Cmd) : Actor :=
  if a.closed then a else handle cfg a c

end Actor

structure Registry where
  sessions : IdMap Actor
  cfg : ActorCfg
deriving DecidableEq

namespace Registry

/-- The actor of a session; a missing or a closed one is replaced by a new one. -/
def getOrSpawn (reg : Registry) (sid : String) (now : Nat) : Registry :=
  match reg.sessions.lookup sid with
  | some a =>
    if a.closed then { reg with sessions := reg.sessions.insert sid (.new reg.cfg now) } else reg
  | none => { reg with sessions := reg.sessions.insert sid (.new reg.cfg now) }

/-- `main` is there from the start. -/
def new (cfg : ActorCfg) (now : Nat) : Registry :=
  getOrSpawn { sessions := ∅, cfg } "main" now

/-- One session handles a command. -/
def toSession (reg : Registry) (sid : String) (c : Cmd) : Registry :=
  match reg.sessions.lookup sid with
  | some a => { reg with sessions := reg.sessions.insert sid (a.receive reg.cfg c) }
  | none => reg

/-- Every session handles a command. -/
def broadcast (reg : Registry) (c : Cmd) : Registry :=
  { reg with sessions := reg.sessions.mapValues fun a => a.receive reg.cfg c }

def abortAll (reg : Registry) (runId : String) (hard : Bool) : Registry :=
  reg.broadcast (.abort runId hard)

def healthScanAll (reg : Registry) (now : Nat) : Registry :=
  reg.broadcast (.healthScan now)

/-- An evicted session is taken off the list, unless it was spawned anew since. -/
def removeClosed (reg : Registry) (sid : String) : Registry :=
  match reg.sessions.lookup sid with
  | some a => if a.closed then { reg with sessions := reg.sessions.erase sid } else reg
  | none => reg

/-- What happens to the registry. -/
inductive Op where
  | getOrSpawn (sid : String) (now : Nat)
  | toSession (sid : String) (c : Cmd)
  | abortAll (runId : String) (hard : Bool)
  | healthScanAll (now : Nat)
  | removeClosed (sid : String)
deriving DecidableEq, Repr

/-- Run ids are drawn fresh, in whichever session. -/
def Admissible (reg : Registry) : Op → Bool
  | .toSession _ (.submit runId _ _ _) =>
    runId ≠ "" && reg.sessions.entries.all fun e => !e.2.issued.contains runId
  | _ => true

def step (reg : Registry) (op : Op) : Option Registry :=
  if Admissible reg op then
    some <| match op with
      | .getOrSpawn sid now => reg.getOrSpawn sid now
      | .toSession sid c => reg.toSession sid c
      | .abortAll runId hard => reg.abortAll runId hard
      | .healthScanAll now => reg.healthScanAll now
      | .removeClosed sid => reg.removeClosed sid
  else none

/-- `a` is the actor of the session `sid`, and it is running. -/
def Live (reg : Registry) (sid : String) (a : Actor) : Prop :=
  reg.sessions.lookup sid = some a ∧ a.closed = false

/-! ## What an abort concerns -/

/-- The run is active or waits in the session. -/
def Concerns (runId : String) (a : Actor) : Prop :=
  a.active.map (·.runId) = some runId ∨ runId ∈ a.queue.pendingIds

/-- The same active run with the same token, the same queue and the same parked sinks. -/
def Unmoved (a b : Actor) : Prop :=
  b.active = a.active ∧ b.queue = a.queue ∧ b.sinks = a.sinks

/-- An abort of another run cancels nothing; a hard one still empties the queue. -/
theorem onAbort_unconcerned {a : Actor} {runId : String} (hne : runId ≠ "")
    (hc : ¬ Concerns runId a) (hard : Bool) :
    a.onAbort runId hard =
      if hard then { a with queue := { a.queue with pending := [] } } else a := by
  rw [Concerns, not_or] at hc
  rcases a with ⟨queue, _ | run, _⟩
  · cases hard <;> rfl
  · have hother : run.runId ≠ runId := by simpa using hc.1
    cases hard <;> simp [Actor.onAbort, RunQueue.drainPending, hother, hne]

theorem unmoved_onAbort_iff {a : Actor} {runId : String} (hne : runId ≠ "")
    (hc : ¬ Concerns runId a) (hard : Bool) :
    Unmoved a (a.onAbort runId hard) ↔ hard = false ∨ a.queue.pending = [] := by
  rw [onAbort_unconcerned hne hc]
  cases hard with
  | false => simp [Unmoved]
  | true =>
    constructor
    · rintro ⟨-, hq, -⟩
      exact .inr (congrArg RunQueue.pending hq).symm
    · rintro (h | h)
      · cases h
      · exact ⟨rfl, by rw [if_pos rfl, ← h], rfl⟩

theorem lookup_abortAll_live {reg : Registry} {sid : String} {a : Actor} (h : Live reg sid a)
    (runId : String) (hard : Bool) :
    (reg.abortAll runId hard).sessions.lookup sid = some (a.onAbort runId hard) := by
  obtain ⟨hlook, hopen⟩ := h
  rw [abortAll, broadcast, IdMap.lookup_mapValues, hlook, Option.map_some, Actor.receive, hopen]
  rfl

/-- The live sessions an abort does not concern are left as they were, exactly if the abort is
soft or nothing waits in any of them. -/
theorem abortAll_frame_iff (reg : Registry) (runId : String) (hne : runId ≠ "") (hard : Bool) :
    (∀ sid a b, Live reg sid a → ¬ Concerns runId a →
      (reg.abortAll runId hard).sessions.lookup sid = some b → Unmoved a b) ↔
    (hard = false ∨ ∀ sid a, Live reg sid a → ¬ Concerns runId a → a.queue.pending = []) := by
  constructor
  · intro h
    by_cases hsoft : hard = false
    · exact .inl hsoft
    · refine .inr fun sid a hlive hc => ?_
      have hun := h sid a _ hlive hc (lookup_abortAll_live hlive runId hard)
      exact ((unmoved_onAbort_iff hne hc hard).1 hun).resolve_left hsoft
  · intro h sid a b hlive hc hb
    obtain rfl : a.onAbort runId hard = b := by
      simpa [lookup_abortAll_live hlive] using hb
    exact (unmoved_onAbort_iff hne hc hard).2 (h.imp_right fun hp => hp sid a hlive hc)

/-- One user's run in `main`, and another user's session with a turn that waits. -/
def twoUsers : List Op :=
  [.toSession "main" (.submit "r" "x" (.conn 1) 0), .getOrSpawn "other" 1,
    .toSession "other" (.submit "a" "y" (.conn 2) 2), .toSession "other" (.submit "b" "z" (.conn 2) 3)]

/-- A soft abort leaves the waiting turn alone. -/
theorem abortAll_frame_iff_soft :
    ∃ reg, Steps.exec step (new testCfg 0) twoUsers = some reg ∧
      ∀ sid a b, Live reg sid a → ¬ Concerns "r" a →
        (reg.abortAll "r" false).sessions.lookup sid = some b → Unmoved a b := by
  have hrun : (Steps.exec step (new testCfg 0) twoUsers).isSome := by decide
  obtain ⟨reg, hreg⟩ := Option.isSome_iff_exists.1 hrun
  exact ⟨reg, hreg, (abortAll_frame_iff reg "r" (by decide) false).2 (.inl rfl)⟩

/-- The first user's hard abort drops the other one's waiting turn. -/
theorem abortAll_frame_fails :
    ¬ ∀ (ops : List Op) (reg : Registry), Steps.exec step (new testCfg 0) ops = some reg →
      ∀ runId, runId ≠ "" → ∀ hard sid a b, Live reg sid a → ¬ Concerns runId a →
        (reg.abortAll runId hard).sessions.lookup sid = some b → Unmoved a b := by
  intro h
  have hother : ((Steps.exec step (new testCfg 0) twoUsers).bind fun reg =>
      reg.sessions.lookup "other").map (fun a => (a.closed, a.active.map (·.runId), a.queue.pendingIds)) =
      some (false, some "a", ["b"]) := by decide
  obtain ⟨a, ha, heq⟩ := Option.map_eq_some_iff.1 hother
  obtain ⟨reg, hrun, hlook⟩ := Option.bind_eq_some_iff.1 ha
  simp only [Prod.mk.injEq] at heq
  obtain ⟨hopen, hact, hpend⟩ := heq
  have hc : ¬ Concerns "r" a := by simp [Concerns, hact, hpend]
  have hun := h twoUsers reg hrun "r" (by decide) true "other" a _ ⟨hlook, hopen⟩ hc
    (lookup_abortAll_live ⟨hlook, hopen⟩ "r" true)
  have hnil := ((unmoved_onAbort_iff (by decide) hc true).1 hun).resolve_left (by decide)
  simp [RunQueue.pendingIds, hnil] at hpend

end Registry

end OhMyClaw
