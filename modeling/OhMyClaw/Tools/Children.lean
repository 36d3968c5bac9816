import OhMyClaw.Server.Ledger
import OhMyClaw.Tools.Approval

/-!
# The children of stopped commands

A call of `exec` may be stopped at any point: by the run's token, by its own time limit, by the
run's, or because the run is aborted and its future dropped.  A background task is stopped by the
ledger.  None of these reaches the child: the process was started without `kill_on_drop`, and the
ledger has no handle on it.  What is stopped is the waiting.

    move_stops       which moves stop a call
    task_child       no step of the ledger ends a child
    stopped_iff      when no stopped command is still running
-/

namespace OhMyClaw

namespace Children

open Approval

/-- The tool calls, the calls whose child has exited, and the background tasks. -/
structure World where
  sys : Sys
  exited : List Nat
  ledger : TaskLedger
deriving DecidableEq

def start : World := { sys := .empty, exited := [], ledger := .new }

/-- Call `k` has started a child, which has not exited. -/
def Running (w : World) (k : Nat) : Prop := k ∈ w.sys.spawned.map (·.1) ∧ k ∉ w.exited

instance (w : World) (k : Nat) : Decidable (Running w k) := inferInstanceAs (Decidable (_ ∧ _))

inductive Act where
  | sys (a : Approval.Act)
  | childExits (k : Nat)
  /-- The future of a run is dropped: at the run's time limit, or by a hard abort. -/
  | dropRun (run : String)
  | ledger (a : TaskLedger.Act)
deriving DecidableEq

/-- A call of `exec` is done only when its child has been waited for. -/
def waits (w : World) : Approval.Act → Bool
  | .move k .childDone => (w.sys.calls[k]?).any (·.tool = .exec) && !w.exited.contains k
  | _ => false

def dropCall (run : String) (c : Call) : Call :=
  if c.run = run ∧ c.pc.isFinished = false then { c with pc := .finished .aborted } else c

def step (cfg : Cfg) (w : World) : Act → Option World
  | .sys a => if waits w a then none else (Approval.step cfg w.sys a).map fun sys => { w with sys }
  | .childExits k => if Running w k then some { w with exited := w.exited ++ [k] } else none
  | .dropRun run =>
    some { w with
      sys := { w.sys with calls := w.sys.calls.map (dropCall run), cancelled := w.sys.cancelled ++ [run] } }
  | .ledger a => (w.ledger.step a).map fun ledger => { w with ledger }

/-- A call of `exec` that has ended as aborted or timed out. -/
def IsStopped (c : Call) : Prop :=
  c.tool = .exec ∧ (c.pc = .finished .aborted ∨ c.pc = .finished .timedOut)

/-- What is claimed: a stopped command is no longer running. -/
structure Stopped (w : World) : Prop where
  calls : ∀ (k : Nat) (c : Call), w.sys.calls[k]? = some c → IsStopped c → ¬ Running w k
  tasks : ∀ t ∈ w.ledger.tasks, t.state = .cancelled → t.child.isSome = true

/-- The moves that stop a call. -/
def stops : Move → Bool
  | .askCancelled | .cancelled | .timedOut => true
  | _ => false

/-- Nothing is stopped while its child is running. -/
def Spares (w : World) : Act → Prop
  | .sys (.move k m) =>
    stops m = true → ∀ c, w.sys.calls[k]? = some c → c.tool = .exec → ¬ Running w k
  | .dropRun run => ∀ (k : Nat) (c : Call), w.sys.calls[k]? = some c → c.tool = .exec → c.run = run →
      c.pc.isFinished = false → ¬ Running w k
  | .ledger (.task id .takesCancel) => ∀ t, w.ledger.tasks[id]? = some t → t.child.isSome = true
  | _ => True

/-! ## Calls -/

theorem not_isStopped_of {c : Call} (h : ∀ r, c.pc ≠ .finished r) : ¬ IsStopped c := by
  rintro ⟨-, hpc | hpc⟩
  · exact h _ hpc
  · exact h _ hpc

/-- A move sets where its call stands, and stops it if it is one of the moves that do. -/
theorem move_stops {cfg : Cfg} {s t : Sys} {k : Nat} {c : Call} {m : Move} (h : move cfg s k c m = some t) :
    ∃ (s' : Sys) (pc : Pc), t = s'.setPc k pc ∧ s'.calls = s.calls ∧
      ((m ≠ .spawn ∧ s'.spawned = s.spawned) ∨ (m = .spawn ∧ s'.spawned = s.spawned ++ [(k, c.command)])) ∧
      ((pc = .finished .aborted ∨ pc = .finished .timedOut) ↔ stops m = true) := by
  cases m with
  | issue id =>
    simp only [move, Option.ite_none_right_eq_some, Option.some.injEq] at h
    obtain ⟨-, rfl⟩ := h
    exact ⟨_, _, rfl, rfl, Or.inl ⟨by simp, rfl⟩, by simp [stops]⟩
  | pumpReads =>
    simp only [move] at h
    split at h
    · cases h
      exact ⟨_, _, rfl, rfl, Or.inl ⟨by simp, rfl⟩, by simp [stops]⟩
    · cases h
  | pumpCancelled =>
    simp only [move] at h
    split at h
    all_goals try simp only [Option.ite_none_right_eq_some, Option.some.injEq, reduceCtorEq] at h
    all_goals obtain ⟨-, rfl⟩ := h
    all_goals exact ⟨_, _, rfl, rfl, Or.inl ⟨by simp, rfl⟩, by simp [stops]⟩
  | pumpDisconnected =>
    simp only [move] at h
    split at h
    all_goals cases h
    all_goals exact ⟨_, _, rfl, rfl, Or.inl ⟨by simp, rfl⟩, by simp [stops]⟩
  | askReturns =>
    simp only [move] at h
    split at h
    all_goals cases h
    all_goals exact ⟨_, _, rfl, rfl, Or.inl ⟨by simp, rfl⟩, by simp [stops]⟩
  | spawn =>
    simp only [move, Option.ite_none_right_eq_some, Option.some.injEq] at h
    obtain ⟨-, rfl⟩ := h
    exact ⟨_, _, rfl, rfl, Or.inr ⟨rfl, rfl⟩, by simp [stops]⟩
  | timedOut =>
    simp only [move, Option.ite_none_left_eq_some, Option.some.injEq] at h
    obtain ⟨-, rfl⟩ := h
    exact ⟨_, _, rfl, rfl, Or.inl ⟨by simp, rfl⟩, by simp [stops]⟩
  | askTimeout | askCancelled | childDone | cancelled =>
    simp only [move, Option.ite_none_right_eq_some, Option.some.injEq] at h
    obtain ⟨-, rfl⟩ := h
    exact ⟨_, _, rfl, rfl, Or.inl ⟨by simp, rfl⟩, by simp [stops]⟩

/-- A step of the calls that stops none leaves the stopped ones as they were; a child is started only
for a call that goes on. -/
theorem stopped_move {cfg : Cfg} {w : World} {s : Sys} {k : Nat} {c : Call} {m : Move} (h : Stopped w)
    (hk : w.sys.calls[k]? = some c) (hmove : move cfg w.sys k c m = some s) :
    Stopped { w with sys := s } ↔ (stops m = true → c.tool = .exec → ¬ Running w k) := by
  obtain ⟨s', pc, rfl, hcalls, hspawned, hpc⟩ := move_stops hmove
  have hget : ∀ j : Nat, (s'.setPc k pc).calls[j]? =
      (w.sys.calls[j]?).map fun d => if k = j then { d with pc } else d := by
    intro j
    rw [getElem?_setPc, hcalls]
  have hrunning : ∀ j, (j ≠ k ∨ m ≠ .spawn) → (Running { w with sys := s'.setPc k pc } j ↔ Running w j) := by
    intro j hj
    have hmem : j ∈ s'.spawned.map (·.1) ↔ j ∈ w.sys.spawned.map (·.1) := by
      rcases hspawned with ⟨-, hsame⟩ | ⟨hm, hadded⟩
      · rw [hsame]
      · have hjk := hj.resolve_right fun hne => hne hm
        rw [hadded, List.map_append, List.mem_append]
        simp [hjk]
    exact and_congr hmem Iff.rfl
  constructor
  · intro hafter hstops hexec
    have hm : m ≠ .spawn := by
      rintro rfl
      simp [stops] at hstops
    rw [← hrunning k (Or.inr hm)]
    refine hafter.calls k { c with pc } ?_ ⟨hexec, hpc.2 hstops⟩
    rw [hget, hk, Option.map_some, if_pos rfl]
  · intro hspares
    refine ⟨?_, h.tasks⟩
    intro j d hd hstopped
    rw [hget, Option.map_eq_some_iff] at hd
    obtain ⟨d', hd', rfl⟩ := hd
    by_cases hkj : k = j
    · subst hkj
      obtain rfl : c = d' := by simpa [hk] using hd'
      rw [if_pos rfl] at hstopped
      have hstops := hpc.1 hstopped.2
      have hm : m ≠ .spawn := by
        rintro rfl
        simp [stops] at hstops
      rw [hrunning k (Or.inr hm)]
      exact hspares hstops hstopped.1
    · rw [if_neg hkj] at hstopped
      rw [hrunning j (Or.inl fun hjk => hkj hjk.symm)]
      exact h.calls j d' hd' hstopped

/-- A new call is not stopped. -/
theorem not_isStopped_newCall (cfg : Cfg) (run : String) (tool : ShellTool) (command : Option String) :
    ¬ IsStopped (newCall cfg run tool command) := by
  cases command with
  | none => simp [IsStopped, newCall]
  | some raw =>
    simp only [newCall]
    split
    · simp [IsStopped]
    · cases tool with
      | process => simp [IsStopped]
      | exec =>
        simp only [IsStopped, gatePc]
        cases cfg.decision (String.ofList (RustStr.trim raw.toList)) with
        | askUser => cases cfg.gate <;> simp
        | _ => simp

theorem stopped_sys {cfg : Cfg} {w : World} {a : Approval.Act} {s : Sys} (h : Stopped w)
    (hstep : Approval.step cfg w.sys a = some s) : Stopped { w with sys := s } ↔ Spares w (.sys a) := by
  cases a with
  | invoke run tool command =>
    cases hstep
    refine iff_of_true ⟨?_, h.tasks⟩ trivial
    intro k c hk hstopped
    by_cases hlt : k < w.sys.calls.length
    · rw [List.getElem?_append_left hlt] at hk
      exact h.calls k c hk hstopped
    · have hlen := (List.getElem?_eq_some_iff.1 hk).1
      rw [List.length_append, List.length_singleton] at hlen
      obtain rfl : k = w.sys.calls.length := by omega
      rw [List.getElem?_concat_length] at hk
      obtain rfl := Option.some.inj hk
      exact absurd hstopped (not_isStopped_newCall cfg run tool command)
  | move k m =>
    simp only [Approval.step] at hstep
    split at hstep
    · next c hk =>
      rw [stopped_move h hk hstep]
      simp [Spares, hk]
    · cases hstep
  | reply id allow =>
    cases hstep
    refine iff_of_true ⟨?_, h.tasks⟩ trivial
    intro k c hk hstopped
    have hold : ∃ d, w.sys.calls[k]? = some d ∧ (d = c ∨ c.pc = .answered id allow) := by
      unfold Sys.reply at hk
      simp only at hk
      split at hk
      · simp only [List.getElem?_modify] at hk
        obtain ⟨d, hd, rfl⟩ := Option.map_eq_some_iff.1 hk
        refine ⟨d, hd, ?_⟩
        repeat' split
        all_goals simp
      · exact ⟨c, hk, Or.inl rfl⟩
    have hspawned : (w.sys.reply id allow).spawned = w.sys.spawned := (extends_reply w.sys id allow).2
    obtain ⟨d, hd, rfl | hanswered⟩ := hold
    · have := h.calls k d hd hstopped
      rwa [Running, hspawned]
    · exact absurd hstopped (not_isStopped_of fun r => by simp [hanswered])
  | cancel run =>
    cases hstep
    exact iff_of_true ⟨h.calls, h.tasks⟩ trivial

theorem stopped_dropRun {w : World} (h : Stopped w) (run : String) (cancelled : List String) :
    Stopped { w with sys := { w.sys with calls := w.sys.calls.map (dropCall run), cancelled } } ↔
      Spares w (.dropRun run) := by
  constructor
  · intro hafter k c hk hexec hrun hfinished
    refine hafter.calls k (dropCall run c) ?_ ?_
    · simp [hk]
    · rw [dropCall, if_pos ⟨hrun, hfinished⟩]
      exact ⟨hexec, Or.inl rfl⟩
  · intro hspares
    refine ⟨?_, h.tasks⟩
    intro k d hd hstopped
    simp only [List.getElem?_map] at hd
    obtain ⟨c, hc, rfl⟩ := Option.map_eq_some_iff.1 hd
    by_cases hdrop : c.run = run ∧ c.pc.isFinished = false
    · rw [dropCall, if_pos hdrop] at hstopped
      exact hspares k c hc hstopped.1 hdrop.1 hdrop.2
    · rw [dropCall, if_neg hdrop] at hstopped
      exact h.calls k c hc hstopped

/-! ## Tasks -/

/-- A step of a task leaves a child that has ended ended; the task becomes cancelled only when its tracker
takes the cancellation, which does nothing to the child. -/
theorem task_child {t : BgTask} {a : TaskAct} {p : BgTask × Option TaskUpdate} (hact : t.act a = some p) :
    (t.child.isSome = true → p.1.child.isSome = true) ∧
      (a = .takesCancel → p.1.state = .cancelled ∧ p.1.child = t.child) ∧
      (a ≠ .takesCancel → p.1.state = .cancelled → t.state = .cancelled) := by
  cases a with
  | line l | exits code | closes | takesCancel =>
    simp only [BgTask.act, Option.ite_none_right_eq_some, Option.some.injEq] at hact
    obtain ⟨-, rfl⟩ := hact
    simp
  | sendsCode =>
    simp only [BgTask.act] at hact
    split at hact
    · simp only [Option.ite_none_right_eq_some, Option.some.injEq] at hact
      obtain ⟨-, rfl⟩ := hact
      simp
    · cases hact
  | takesLine =>
    simp only [BgTask.act, Option.ite_none_right_eq_some] at hact
    obtain ⟨-, hact⟩ := hact
    split at hact
    · cases hact
      simp
    · simp only [Option.ite_none_right_eq_some, Option.some.injEq] at hact
      obtain ⟨-, rfl⟩ := hact
      simp
  | finishes =>
    simp only [BgTask.act] at hact
    split at hact
    · simp only [Option.ite_none_right_eq_some, Option.some.injEq] at hact
      obtain ⟨-, rfl⟩ := hact
      refine ⟨id, by simp, ?_⟩
      simp only
      split <;> simp
    · cases hact

theorem stopped_ledger {w : World} {a : TaskLedger.Act} {ledger : TaskLedger} (h : Stopped w)
    (hstep : w.ledger.step a = some ledger) : Stopped { w with ledger } ↔ Spares w (.ledger a) := by
  cases a with
  | register command =>
    cases hstep
    refine iff_of_true ⟨h.calls, ?_⟩ trivial
    intro t ht
    rcases List.mem_append.1 ht with ht | ht
    · exact h.tasks t ht
    · obtain rfl := List.mem_singleton.1 ht
      simp [BgTask.new]
  | cancel id =>
    refine iff_of_true ⟨h.calls, ?_⟩ trivial
    simp only [TaskLedger.step] at hstep
    split at hstep
    · next t ht =>
      cases hstep
      intro x hx
      rcases List.mem_or_eq_of_mem_set hx with hx | rfl
      · exact h.tasks x hx
      · exact h.tasks t (List.mem_of_getElem? ht)
    · cases hstep
      exact h.tasks
  | task id a =>
    obtain ⟨t, ht, hstep⟩ := Option.bind_eq_some_iff.1 hstep
    obtain ⟨p, hp, rfl⟩ := Option.map_eq_some_iff.1 hstep
    obtain ⟨hchild, hcancel, hother⟩ := task_child hp
    have hset : Stopped { w with ledger := { tasks := w.ledger.tasks.set id p.1, events := w.ledger.events ++ p.2.toList.map fun u => (id, u) } } ↔
        (p.1.state = .cancelled → p.1.child.isSome = true) := by
      constructor
      · intro hafter
        exact hafter.tasks p.1 (List.mem_iff_getElem?.2 ⟨id, List.getElem?_set_self (List.getElem?_eq_some_iff.1 ht).1⟩)
      · intro hp
        refine ⟨h.calls, fun x hx => ?_⟩
        rcases List.mem_or_eq_of_mem_set hx with hx | rfl
        · exact h.tasks x hx
        · exact hp
    rw [hset]
    by_cases ha : a = .takesCancel
    · subst ha
      obtain ⟨hstate, hsame⟩ := hcancel rfl
      simp [Spares, ht, hstate, hsame]
    · refine iff_of_true ?_ ?_
      · intro hstate
        exact hchild (h.tasks t (List.mem_of_getElem? ht) (hother ha hstate))
      · cases a with
        | takesCancel => exact absurd rfl ha
        | _ => trivial

/-! ## Runs -/

/-- No stopped command is still running, exactly in the runs that stop nothing while its child is
running. -/
theorem stopped_iff (cfg : Cfg) (acts : List Act) :
    Steps.AllStates (step cfg) Stopped start acts ↔
      Steps.AllSteps (step cfg) (fun w a _ => Spares w a) start acts := by
  refine Steps.allStates_iff_allSteps (I := fun _ => True) (fun _ _ _ _ _ => trivial) ?_ trivial
    ⟨by simp [start, Sys.empty], by simp [start, TaskLedger.new]⟩ acts
  intro w a w' _ hstopped hstep
  cases a with
  | sys a =>
    simp only [step, Option.ite_none_left_eq_some, Option.map_eq_some_iff] at hstep
    obtain ⟨-, s, hs, rfl⟩ := hstep
    exact stopped_sys hstopped hs
  | childExits k =>
    simp only [step, Option.ite_none_right_eq_some, Option.some.injEq] at hstep
    obtain ⟨-, rfl⟩ := hstep
    refine iff_of_true ⟨?_, hstopped.tasks⟩ trivial
    rintro j c hj hc ⟨hspawned, hexited⟩
    exact hstopped.calls j c hj hc ⟨hspawned, fun hmem => hexited (List.mem_append_left _ hmem)⟩
  | dropRun run =>
    cases hstep
    exact stopped_dropRun hstopped run _
  | ledger a =>
    obtain ⟨ledger, hledger, rfl⟩ := Option.map_eq_some_iff.1 hstep
    exact stopped_ledger hstopped hledger

/-- A command that takes too long: the call times out, its child goes on. -/
theorem stopped_fails_on_timeout :
    ¬ Steps.AllStates (step { mode := .allow, approvalTimeout := 0, gate := true, toLowercase := id }) Stopped start
      [.sys (.invoke "r" .exec (some "sleep 60; rm notes")), .sys (.move 0 .spawn), .sys (.move 0 .timedOut)] := by
  rw [Steps.allStates_iff]
  intro h
  obtain ⟨w, hw, hcalls⟩ := Option.map_eq_some_iff.1 (show
    (Steps.exec (step { mode := .allow, approvalTimeout := 0, gate := true, toLowercase := id }) start
      [.sys (.invoke "r" .exec (some "sleep 60; rm notes")), .sys (.move 0 .spawn), .sys (.move 0 .timedOut)]).map
      (fun w => (w.sys.calls[0]?.map fun c => (c.tool, c.pc), decide (Running w 0))) =
        some (some (.exec, .finished .timedOut), true) by decide)
  obtain ⟨hcall, hrunning⟩ := Prod.mk.inj hcalls
  obtain ⟨c, hc, hpc⟩ := Option.map_eq_some_iff.1 hcall
  obtain ⟨htool, hpc⟩ := Prod.mk.inj hpc
  exact (h _ w (List.prefix_refl _) hw).calls 0 c hc ⟨htool, Or.inr hpc⟩ (of_decide_eq_true hrunning)

end Children

end OhMyClaw
