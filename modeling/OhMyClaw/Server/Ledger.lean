import OhMyClaw.Lib.Steps
import OhMyClaw.Proto.Frame

/-!
# The ledger of background tasks

A background process is handed to the ledger with two channels: the lines of its output, and its
exit code.  A tracker reads the lines until there are no more or the task is cancelled; then it
waits for the exit code, and in this second phase it no longer looks at the cancellation.  The
output ends only after the code was sent, so the second phase is short.  While it reads, a
cancellation and the end of the output may both be there, and either may be taken.

    step_sound        the updates of a task tell its state
    stays             a terminal state is for good
    cancel_kept       when a task that was cancelled ends as cancelled
-/

namespace OhMyClaw

def TaskState.isTerminal : TaskState → Bool
  | .queued => false
  | .running => false
  | .done => true
  | .failed => true
  | .cancelled => true

/-- Where the tracker of a task is. -/
inductive Tracker where
  | reading | awaiting | ended
deriving DecidableEq, Repr

/-- A task of the ledger with its process, its channels and its tracker. -/
structure BgTask where
  command : String
  state : TaskState
  /-- The cancellation token. -/
  cancelled : Bool
  tracker : Tracker
  lastLine : String
  /-- The lines the tracker has not read yet. -/
  output : List String
  /-- The exit code, once the process has ended; a process ended by a signal has none. -/
  child : Option (Option Int)
  /-- The exit code, once it was sent. -/
  done : Option Int
  /-- The sender of the lines is gone. -/
  closed : Bool
  /-- For the record: a cancel was answered with true while the task was running. -/
  promised : Bool
deriving DecidableEq, Repr

inductive TaskAct where
  /-- A line is read from the process and sent. -/
  | line (l : String)
  | exits (code : Option Int)
  /-- The output of the process has ended, it has been waited for, and its code is sent. -/
  | sendsCode
  | closes
  /-- The tracker takes the cancellation. -/
  | takesCancel
  /-- The tracker takes a line, or the end of the lines. -/
  | takesLine
  /-- The tracker has the exit code. -/
  | finishes
deriving DecidableEq, Repr

namespace BgTask

def new (command : String) : BgTask :=
  { command, state := .running, cancelled := false, tracker := .reading, lastLine := "", output := []
    child := none, done := none, closed := false, promised := false }

/-- `cancel` sets the token and looks at nothing. -/
def cancel (t : BgTask) : BgTask :=
  { t with cancelled := true, promised := t.promised || t.state = .running }

/-- One step of the process or of the tracker, with the update it emits. -/
def act (t : BgTask) : TaskAct → Option (BgTask × Option TaskUpdate)
  | .line l => if t.done.isNone then some ({ t with output := t.output ++ [l] }, none) else none
  | .exits code => if t.child.isNone then some ({ t with child := some code }, none) else none
  | .sendsCode =>
    match t.child with
    | some code => if t.done.isNone then some ({ t with done := some (code.getD (-1)) }, none) else none
    | none => none
  | .closes => if t.done.isSome then some ({ t with closed := true }, none) else none
  | .takesCancel =>
    if t.tracker = .reading ∧ t.cancelled = true then
      some ({ t with tracker := .ended, state := .cancelled }, some { state := .cancelled, detail := none })
    else none
  | .takesLine =>
    if t.tracker = .reading then
      match t.output with
      | l :: rest => some ({ t with output := rest, lastLine := l }, none)
      | [] => if t.closed then some ({ t with tracker := .awaiting }, none) else none
    else none
  | .finishes =>
    match t.done with
    | some code =>
      if t.tracker = .awaiting then
        let state := if code = 0 then .done else .failed
        some ({ t with tracker := .ended, state }
          , some { state, detail := some ("退出码 " ++ toString code ++ "；末行: " ++ t.lastLine) })
      else none
    | none => none

/-- The steps of the process and of the task that reads it. -/
def ofProcess : TaskAct → Bool
  | .line _ | .exits _ | .sendsCode | .closes => true
  | .takesCancel | .takesLine | .finishes => false

/-- A task that was cancelled while it ran is cancelled if it has ended. -/
def Kept (t : BgTask) : Prop := t.promised = true → t.state = .running ∨ t.state = .cancelled

/-- A task that was cancelled while it ran, and that ends or has ended otherwise. -/
def Lost (t : BgTask) : Prop :=
  t.promised = true ∧ (t.tracker = .awaiting ∨ t.tracker = .ended ∧ t.state ≠ .cancelled)

/-! ## One task -/

/-- What is true of every task of the ledger. -/
structure Sound (t : BgTask) : Prop where
  running : t.tracker ≠ .ended → t.state = .running
  terminal : t.tracker = .ended → t.state.isTerminal = true
  closed : t.closed = true → t.done.isSome = true
  awaiting : t.tracker = .awaiting → t.closed = true
  promised : t.tracker ≠ .ended → (t.promised = true ↔ t.cancelled = true)

theorem sound_new (command : String) : Sound (new command) :=
  ⟨fun _ => rfl, nofun, nofun, nofun, fun _ => Iff.rfl⟩

theorem sound_cancel {t : BgTask} (h : Sound t) : Sound t.cancel := by
  refine ⟨h.running, h.terminal, h.closed, h.awaiting, ?_⟩
  intro hended
  simp [cancel, h.running hended]

/-- The process knows nothing of the tracker. -/
theorem act_ofProcess {t : BgTask} (h : t.closed = true → t.done.isSome = true) {a : TaskAct}
    (ha : ofProcess a = true) {p : BgTask × Option TaskUpdate} (hact : t.act a = some p) :
    p.2 = none ∧ p.1.state = t.state ∧ p.1.cancelled = t.cancelled ∧ p.1.tracker = t.tracker ∧
      p.1.promised = t.promised ∧ (t.closed = true → p.1.closed = true) ∧
      (p.1.closed = true → p.1.done.isSome = true) := by
  cases a with
  | line l =>
    simp only [act, Option.ite_none_right_eq_some, Option.some.injEq] at hact
    obtain ⟨-, rfl⟩ := hact
    exact ⟨rfl, rfl, rfl, rfl, rfl, id, h⟩
  | exits code =>
    simp only [act, Option.ite_none_right_eq_some, Option.some.injEq] at hact
    obtain ⟨-, rfl⟩ := hact
    exact ⟨rfl, rfl, rfl, rfl, rfl, id, h⟩
  | sendsCode =>
    simp only [act] at hact
    split at hact
    · simp only [Option.ite_none_right_eq_some, Option.some.injEq] at hact
      obtain ⟨-, rfl⟩ := hact
      exact ⟨rfl, rfl, rfl, rfl, rfl, id, fun _ => rfl⟩
    · cases hact
  | closes =>
    simp only [act, Option.ite_none_right_eq_some, Option.some.injEq] at hact
    obtain ⟨hdone, rfl⟩ := hact
    exact ⟨rfl, rfl, rfl, rfl, rfl, fun _ => rfl, fun _ => hdone⟩
  | takesCancel | takesLine | finishes => cases ha

theorem sound_act {t : BgTask} (h : Sound t) {a : TaskAct} {p : BgTask × Option TaskUpdate}
    (hact : t.act a = some p) : Sound p.1 := by
  by_cases ha : ofProcess a = true
  · obtain ⟨-, hstate, hcancelled, htracker, hpromised, hclosed, hdone⟩ := act_ofProcess h.closed ha hact
    refine ⟨?_, ?_, hdone, ?_, ?_⟩
    · rw [htracker, hstate]
      exact h.running
    · rw [htracker, hstate]
      exact h.terminal
    · rw [htracker]
      exact fun hawaiting => hclosed (h.awaiting hawaiting)
    · rw [htracker, hpromised, hcancelled]
      exact h.promised
  cases a with
  | line l | exits code | sendsCode | closes => exact absurd rfl ha
  | takesCancel =>
    simp only [act, Option.ite_none_right_eq_some, Option.some.injEq] at hact
    obtain ⟨-, rfl⟩ := hact
    exact ⟨fun hne => absurd rfl hne, fun _ => rfl, h.closed, nofun, fun hne => absurd rfl hne⟩
  | takesLine =>
    simp only [act, Option.ite_none_right_eq_some] at hact
    obtain ⟨hreading, hact⟩ := hact
    split at hact
    · cases hact
      exact ⟨h.running, h.terminal, h.closed, h.awaiting, h.promised⟩
    · simp only [Option.ite_none_right_eq_some, Option.some.injEq] at hact
      obtain ⟨hclosed, rfl⟩ := hact
      have hnot : t.tracker ≠ .ended := by simp [hreading]
      exact ⟨fun _ => h.running hnot, nofun, h.closed, fun _ => hclosed, fun _ => h.promised hnot⟩
  | finishes =>
    simp only [act] at hact
    split at hact
    · simp only [Option.ite_none_right_eq_some, Option.some.injEq] at hact
      obtain ⟨-, rfl⟩ := hact
      refine ⟨fun hne => absurd rfl hne, fun _ => ?_, h.closed, nofun, fun hne => absurd rfl hne⟩
      show TaskState.isTerminal (if _ then TaskState.done else TaskState.failed) = true
      split <;> rfl
    · cases hact

/-- A step emits an update exactly if the task ends with it, and then the update tells the state. -/
theorem act_update {t : BgTask} (h : Sound t) {a : TaskAct} {p : BgTask × Option TaskUpdate}
    (hact : t.act a = some p) :
    (p.2 = none ∧ p.1.state = t.state) ∨
      ∃ u, p.2 = some u ∧ p.1.state = u.state ∧ u.state.isTerminal = true ∧ t.state.isTerminal = false := by
  have hrunning : t.tracker ≠ .ended → t.state.isTerminal = false := fun hne => by
    rw [h.running hne]
    rfl
  by_cases ha : ofProcess a = true
  · obtain ⟨hnone, hstate, -⟩ := act_ofProcess h.closed ha hact
    exact Or.inl ⟨hnone, hstate⟩
  cases a with
  | line l | exits code | sendsCode | closes => exact absurd rfl ha
  | takesCancel =>
    right
    simp only [act, Option.ite_none_right_eq_some, Option.some.injEq] at hact
    obtain ⟨⟨hreading, -⟩, rfl⟩ := hact
    exact ⟨_, rfl, rfl, rfl, hrunning (by simp [hreading])⟩
  | takesLine =>
    left
    simp only [act, Option.ite_none_right_eq_some] at hact
    obtain ⟨-, hact⟩ := hact
    split at hact
    · cases hact
      exact ⟨rfl, rfl⟩
    · simp only [Option.ite_none_right_eq_some, Option.some.injEq] at hact
      obtain ⟨-, rfl⟩ := hact
      exact ⟨rfl, rfl⟩
  | finishes =>
    right
    simp only [act] at hact
    split at hact
    · simp only [Option.ite_none_right_eq_some, Option.some.injEq] at hact
      obtain ⟨hawaiting, rfl⟩ := hact
      refine ⟨_, rfl, rfl, ?_, hrunning (by simp [hawaiting])⟩
      simp only
      split <;> rfl
    · cases hact

/-- A task whose lines have ended, or that is cancelled while it is read, can go on to its end. -/
theorem act_enabled {t : BgTask} (h : Sound t) (hnot : t.tracker ≠ .ended)
    (hready : t.closed = true ∨ t.cancelled = true) :
    ∃ a ∈ [TaskAct.takesCancel, .takesLine, .finishes], (t.act a).isSome = true := by
  cases htracker : t.tracker with
  | ended => exact absurd htracker hnot
  | awaiting =>
    obtain ⟨code, hcode⟩ := Option.isSome_iff_exists.1 (h.closed (h.awaiting htracker))
    exact ⟨.finishes, by simp, by simp [act, hcode, htracker]⟩
  | reading =>
    rcases hready with hclosed | hcancelled
    · refine ⟨.takesLine, by simp, ?_⟩
      cases houtput : t.output <;> simp [act, htracker, houtput, hclosed]
    · exact ⟨.takesCancel, by simp, by simp [act, htracker, hcancelled]⟩

theorem kept_of_not_lost {t : BgTask} (h : Sound t) (hlost : ¬ t.Lost) : t.Kept := by
  intro hpromised
  by_cases hended : t.tracker = .ended
  · right
    by_contra hne
    exact hlost ⟨hpromised, Or.inr ⟨hended, hne⟩⟩
  · exact Or.inl (h.running hended)

theorem not_kept_of_lost {t : BgTask} (h : Sound t) (hlost : t.Lost) (hended : t.tracker = .ended) : ¬ t.Kept := by
  obtain ⟨hpromised, hlost⟩ := hlost
  intro hkept
  have hterminal := h.terminal hended
  rcases hkept hpromised with hrunning | hcancelled
  · simp [hrunning, TaskState.isTerminal] at hterminal
  · rcases hlost with hawaiting | ⟨-, hne⟩
    · simp [hended] at hawaiting
    · exact hne hcancelled

/-- The steps that lose a cancellation: the tracker takes the end of the lines of a cancelled task. -/
def Loses (t : BgTask) : TaskAct → Prop
  | .takesLine => t.cancelled = true ∧ t.output = []
  | _ => False

theorem lost_cancel {t : BgTask} (h : Sound t) (hnot : ¬ t.Lost) :
    t.cancel.Lost ↔ t.tracker = .awaiting := by
  constructor
  · rintro ⟨hdue, hawaiting | ⟨hended, hne⟩⟩
    · exact hawaiting
    · -- a cancel that comes after the end promises nothing
      have hterminal := h.terminal hended
      have hpromised : t.promised = true := by
        by_contra hp
        have hrunning : t.state = .running := by simpa [cancel, hp] using hdue
        simp [hrunning, TaskState.isTerminal] at hterminal
      exact absurd ⟨hpromised, Or.inr ⟨hended, hne⟩⟩ hnot
  · intro hawaiting
    refine ⟨?_, Or.inl hawaiting⟩
    simp [cancel, h.running (by simp [hawaiting])]

theorem lost_act {t : BgTask} (h : Sound t) (hnot : ¬ t.Lost) {a : TaskAct} {p : BgTask × Option TaskUpdate}
    (hact : t.act a = some p) : p.1.Lost ↔ t.Loses a := by
  by_cases ha : ofProcess a = true
  · obtain ⟨-, hstate, -, htracker, hpromised, -⟩ := act_ofProcess h.closed ha hact
    refine iff_of_false ?_ ?_
    · rwa [Lost, hpromised, htracker, hstate]
    · cases a with
      | takesLine => cases ha
      | _ => exact id
  cases a with
  | line l | exits code | sendsCode | closes => exact absurd rfl ha
  | takesCancel =>
    simp only [act, Option.ite_none_right_eq_some, Option.some.injEq] at hact
    obtain ⟨-, rfl⟩ := hact
    simp [Lost, Loses]
  | takesLine =>
    simp only [act, Option.ite_none_right_eq_some] at hact
    obtain ⟨hreading, hact⟩ := hact
    split at hact
    · next hline =>
      cases hact
      simp [Lost, Loses, hreading, hline]
    · next hline =>
      simp only [Option.ite_none_right_eq_some, Option.some.injEq] at hact
      obtain ⟨-, rfl⟩ := hact
      simp [Lost, Loses, hline, h.promised (by simp [hreading])]
  | finishes =>
    simp only [act] at hact
    split at hact
    · simp only [Option.ite_none_right_eq_some, Option.some.injEq] at hact
      obtain ⟨hawaiting, rfl⟩ := hact
      have hpromised : t.promised ≠ true := fun hp => hnot ⟨hp, Or.inl hawaiting⟩
      simp [Lost, Loses, hpromised]
    · cases hact

/-- What is lost stays lost. -/
theorem lost_stays {t : BgTask} (h : Sound t) (hlost : t.Lost) {a : TaskAct} {p : BgTask × Option TaskUpdate}
    (hact : t.act a = some p) : p.1.Lost := by
  obtain ⟨hpromised, hphase⟩ := hlost
  have hreading : t.tracker ≠ .reading := by
    rcases hphase with hawaiting | ⟨hended, -⟩
    · simp [hawaiting]
    · simp [hended]
  by_cases ha : ofProcess a = true
  · obtain ⟨-, hstate, -, htracker, hpromised', -⟩ := act_ofProcess h.closed ha hact
    rw [Lost, hpromised', htracker, hstate]
    exact ⟨hpromised, hphase⟩
  cases a with
  | line l | exits code | sendsCode | closes => exact absurd rfl ha
  | takesCancel => simp [act, hreading] at hact
  | takesLine => simp [act, hreading] at hact
  | finishes =>
    simp only [act] at hact
    split at hact
    · simp only [Option.ite_none_right_eq_some, Option.some.injEq] at hact
      obtain ⟨-, rfl⟩ := hact
      refine ⟨hpromised, Or.inr ⟨rfl, ?_⟩⟩
      simp only
      split <;> simp
    · cases hact

theorem lost_stays_cancel {t : BgTask} (hlost : t.Lost) : t.cancel.Lost :=
  ⟨by simp [cancel, hlost.1], hlost.2⟩

end BgTask

/-! ## The ledger -/

/-- The tasks, and the updates sent to the clients.  A task's id is its place in the list, which no task
leaves. -/
structure TaskLedger where
  tasks : List BgTask
  events : List (Nat × TaskUpdate)
deriving DecidableEq, Repr

namespace TaskLedger

def new : TaskLedger := { tasks := [], events := [] }

inductive Act where
  | register (command : String)
  /-- Answered with true exactly if there is such a task. -/
  | cancel (id : Nat)
  | task (id : Nat) (a : TaskAct)
deriving DecidableEq, Repr

def step (w : TaskLedger) : Act → Option TaskLedger
  | .register command =>
    some
      { tasks := w.tasks ++ [.new command]
        events := w.events ++ [(w.tasks.length, { state := .running, detail := some command })] }
  | .cancel id =>
    match w.tasks[id]? with
    | some t => some { w with tasks := w.tasks.set id t.cancel }
    | none => some w
  | .task id a =>
    w.tasks[id]?.bind fun t =>
      (t.act a).map fun p =>
        { tasks := w.tasks.set id p.1, events := w.events ++ p.2.toList.map fun u => (id, u) }

/-- The updates that say that a task has ended. -/
def terminals (w : TaskLedger) (id : Nat) : List TaskState :=
  ((w.events.filter (·.1 = id)).map (·.2.state)).filter TaskState.isTerminal

/-- Every task that was cancelled while it ran and has ended is cancelled. -/
def Kept (w : TaskLedger) : Prop := ∀ t ∈ w.tasks, t.Kept

/-- No cancel comes between the end of the output and the exit code, and the tracker does not take the end
of the output of a task that is already cancelled. -/
def Heeded (w : TaskLedger) : Act → Prop
  | .register _ => True
  | .cancel id => ∀ t, w.tasks[id]? = some t → t.tracker ≠ .awaiting
  | .task id a => ∀ t, w.tasks[id]? = some t → ¬ t.Loses a

structure Sound (w : TaskLedger) : Prop where
  tasks : ∀ t ∈ w.tasks, t.Sound
  told : ∀ (id : Nat) (t : BgTask), w.tasks[id]? = some t →
    w.terminals id = if t.state.isTerminal then [t.state] else []
  known : ∀ e ∈ w.events, e.1 < w.tasks.length

/-! ### What a step does -/

theorem terminals_append (w : TaskLedger) (tasks : List BgTask) (evs : List (Nat × TaskUpdate)) (id : Nat) :
    terminals { tasks, events := w.events ++ evs } id =
      w.terminals id ++ ((evs.filter (·.1 = id)).map (·.2.state)).filter TaskState.isTerminal := by
  simp only [terminals, List.filter_append, List.map_append]

theorem terminals_of_unknown {w : TaskLedger} (h : Sound w) {id : Nat} (hid : w.tasks.length ≤ id) :
    w.terminals id = [] := by
  have hnone : w.events.filter (·.1 = id) = [] := by
    rw [List.filter_eq_nil_iff]
    intro e he
    have := h.known e he
    simp only [decide_eq_true_eq]
    omega
  simp [terminals, hnone]

/-- Another task keeps its state and its updates. -/
theorem told_set {w : TaskLedger} (h : Sound w) {id : Nat} {t t' : BgTask} (ht : w.tasks[id]? = some t)
    {evs : List TaskUpdate}
    (hself : w.terminals id ++ (evs.map (·.state)).filter TaskState.isTerminal =
      if t'.state.isTerminal then [t'.state] else [])
    (hsound : t'.Sound) :
    Sound { tasks := w.tasks.set id t', events := w.events ++ evs.map fun u => (id, u) } := by
  have hlt := (List.getElem?_eq_some_iff.1 ht).1
  refine ⟨?_, ?_, ?_⟩
  · intro x hx
    rcases List.mem_or_eq_of_mem_set hx with hx | rfl
    · exact h.tasks x hx
    · exact hsound
  · intro j x hx
    rw [terminals_append]
    simp only at hx
    by_cases hj : id = j
    · subst hj
      rw [List.getElem?_set_self hlt] at hx
      obtain rfl := Option.some.inj hx
      have hall : (evs.map fun u => (id, u)).filter (·.1 = id) = evs.map fun u => (id, u) :=
        List.filter_eq_self.2 fun e he => by
          obtain ⟨u, -, rfl⟩ := List.mem_map.1 he
          simp
      rw [hall, List.map_map]
      exact hself
    · rw [List.getElem?_set_ne hj] at hx
      have hnone : (evs.map fun u => (id, u)).filter (·.1 = j) = [] :=
        List.filter_eq_nil_iff.2 fun e he => by
          obtain ⟨u, -, rfl⟩ := List.mem_map.1 he
          simpa using hj
      rw [hnone, h.told j x hx]
      simp
  · intro e he
    simp only [List.length_set]
    rcases List.mem_append.1 he with he | he
    · exact h.known e he
    · obtain ⟨u, -, rfl⟩ := List.mem_map.1 he
      exact hlt

theorem sound_new : Sound new := ⟨by simp [new], by simp [new], by simp [new]⟩

theorem step_sound {w w' : TaskLedger} {a : Act} (h : Sound w) (hstep : w.step a = some w') : Sound w' := by
  cases a with
  | register command =>
    obtain rfl := Option.some.inj hstep
    refine ⟨?_, ?_, ?_⟩
    · intro t ht
      rcases List.mem_append.1 ht with ht | ht
      · exact h.tasks t ht
      · obtain rfl := List.mem_singleton.1 ht
        exact BgTask.sound_new command
    · intro id t ht
      have hnone : (([(w.tasks.length, { state := TaskState.running, detail := some command : TaskUpdate })].filter
          (·.1 = id)).map (·.2.state)).filter TaskState.isTerminal = [] := by
        by_cases hid : w.tasks.length = id <;> simp [hid, TaskState.isTerminal]
      rw [terminals_append, hnone, List.append_nil]
      simp only at ht
      by_cases hid : id < w.tasks.length
      · rw [List.getElem?_append_left hid] at ht
        exact h.told id t ht
      · have hlen := (List.getElem?_eq_some_iff.1 ht).1
        rw [List.length_append, List.length_singleton] at hlen
        obtain rfl : id = w.tasks.length := by omega
        rw [List.getElem?_concat_length] at ht
        obtain rfl := Option.some.inj ht
        rw [terminals_of_unknown h (Nat.le_refl _)]
        rfl
    · intro e he
      simp only [List.length_append, List.length_singleton]
      rcases List.mem_append.1 he with he | he
      · have := h.known e he
        omega
      · obtain rfl := List.mem_singleton.1 he
        exact Nat.lt_succ_self _
  | cancel id =>
    simp only [step] at hstep
    split at hstep
    · next t ht =>
      obtain rfl := Option.some.inj hstep
      have htold : w.terminals id ++ (([] : List TaskUpdate).map (·.state)).filter TaskState.isTerminal =
          if t.cancel.state.isTerminal then [t.cancel.state] else [] := by
        rw [List.map_nil, List.filter_nil, List.append_nil]
        exact h.told id t ht
      have := told_set h ht htold (BgTask.sound_cancel (h.tasks t (List.mem_of_getElem? ht)))
      simpa using this
    · obtain rfl := Option.some.inj hstep
      exact h
  | task id a =>
    obtain ⟨t, ht, hstep⟩ := Option.bind_eq_some_iff.1 hstep
    obtain ⟨p, hp, rfl⟩ := Option.map_eq_some_iff.1 hstep
    have hsound := h.tasks t (List.mem_of_getElem? ht)
    refine told_set h ht ?_ (BgTask.sound_act hsound hp)
    rw [h.told id t ht]
    rcases BgTask.act_update hsound hp with ⟨hnone, hstate⟩ | ⟨u, hu, hstate, hterminal, hbefore⟩
    · simp [hnone, hstate]
    · simp [hu, hstate, hterminal, hbefore]

/-- A task that has ended keeps its state. -/
theorem step_state {w w' : TaskLedger} {a : Act} (h : Sound w) (hstep : w.step a = some w') {id : Nat}
    {t : BgTask} (ht : w.tasks[id]? = some t) (hterminal : t.state.isTerminal = true) :
    ∃ t', w'.tasks[id]? = some t' ∧ t'.state = t.state := by
  cases a with
  | register command =>
    obtain rfl := Option.some.inj hstep
    exact ⟨t, List.getElem?_append_left (List.getElem?_eq_some_iff.1 ht).1 ▸ ht, rfl⟩
  | cancel j =>
    simp only [step] at hstep
    split at hstep
    · next x hx =>
      obtain rfl := Option.some.inj hstep
      by_cases hj : j = id
      · subst hj
        obtain rfl : t = x := by simpa [ht] using hx
        exact ⟨t.cancel, List.getElem?_set_self (List.getElem?_eq_some_iff.1 ht).1, rfl⟩
      · exact ⟨t, (List.getElem?_set_ne hj).trans ht, rfl⟩
    · obtain rfl := Option.some.inj hstep
      exact ⟨t, ht, rfl⟩
  | task j a =>
    obtain ⟨x, hx, hstep⟩ := Option.bind_eq_some_iff.1 hstep
    obtain ⟨p, hp, rfl⟩ := Option.map_eq_some_iff.1 hstep
    by_cases hj : j = id
    · subst hj
      obtain rfl : t = x := by simpa [ht] using hx
      refine ⟨p.1, List.getElem?_set_self (List.getElem?_eq_some_iff.1 ht).1, ?_⟩
      rcases BgTask.act_update (h.tasks t (List.mem_of_getElem? ht)) hp with ⟨-, hstate⟩ | ⟨u, -, -, -, hbefore⟩
      · exact hstate
      · simp [hterminal] at hbefore
    · exact ⟨t, (List.getElem?_set_ne hj).trans ht, rfl⟩

theorem stays {w w' : TaskLedger} {acts : List Act} (h : Sound w) (hrun : Steps.exec step w acts = some w')
    {id : Nat} {t : BgTask} (ht : w.tasks[id]? = some t) (hterminal : t.state.isTerminal = true) :
    ∃ t', w'.tasks[id]? = some t' ∧ t'.state = t.state := by
  refine (Steps.exec_invariant (I := fun v => Sound v ∧ ∃ t', v.tasks[id]? = some t' ∧ t'.state = t.state) ?_
    ⟨h, t, ht, rfl⟩ hrun).2
  rintro v a v' ⟨hv, t', ht', hsame⟩ hstep
  obtain ⟨t'', ht'', hsame'⟩ := step_state hv hstep ht' (hsame ▸ hterminal)
  exact ⟨step_sound hv hstep, t'', ht'', hsame'.trans hsame⟩

/-! ### Cancelled tasks -/

/-- No cancellation is lost. -/
def NoneLost (w : TaskLedger) : Prop := ∀ t ∈ w.tasks, ¬ t.Lost

theorem noneLost_set {w : TaskLedger} (h : NoneLost w) {id : Nat} {t t' : BgTask} (ht : w.tasks[id]? = some t)
    {evs : List (Nat × TaskUpdate)} :
    NoneLost { tasks := w.tasks.set id t', events := evs } ↔ ¬ t'.Lost := by
  have hlt := (List.getElem?_eq_some_iff.1 ht).1
  constructor
  · intro hall
    exact hall t' (List.mem_iff_getElem?.2 ⟨id, List.getElem?_set_self hlt⟩)
  · intro hnot x hx
    rcases List.mem_or_eq_of_mem_set hx with hx | rfl
    · exact h x hx
    · exact hnot

theorem noneLost_step {w w' : TaskLedger} {a : Act} (h : Sound w) (hnone : NoneLost w)
    (hstep : w.step a = some w') : NoneLost w' ↔ Heeded w a := by
  cases a with
  | register command =>
    obtain rfl := Option.some.inj hstep
    refine iff_of_true ?_ trivial
    intro t ht
    rcases List.mem_append.1 ht with ht | ht
    · exact hnone t ht
    · obtain rfl := List.mem_singleton.1 ht
      rintro ⟨hpromised, -⟩
      simp [BgTask.new] at hpromised
  | cancel id =>
    simp only [step] at hstep
    split at hstep
    · next t ht =>
      obtain rfl := Option.some.inj hstep
      have hmem := List.mem_of_getElem? ht
      rw [noneLost_set hnone ht, BgTask.lost_cancel (h.tasks t hmem) (hnone t hmem)]
      simp [Heeded, ht]
    · next hid =>
      obtain rfl := Option.some.inj hstep
      refine iff_of_true hnone ?_
      simp [Heeded, hid]
  | task id a =>
    obtain ⟨t, ht, hstep⟩ := Option.bind_eq_some_iff.1 hstep
    obtain ⟨p, hp, rfl⟩ := Option.map_eq_some_iff.1 hstep
    have hmem := List.mem_of_getElem? ht
    rw [noneLost_set hnone ht, BgTask.lost_act (h.tasks t hmem) (hnone t hmem) hp]
    simp [Heeded, ht]

theorem allStates_noneLost (acts : List Act) :
    Steps.AllStates step NoneLost new acts ↔ Steps.AllSteps step (fun w a _ => Heeded w a) new acts :=
  Steps.allStates_iff_allSteps (I := Sound) (fun _ _ _ h hs => step_sound h hs)
    (fun _ _ _ h hn hs => noneLost_step h hn hs) sound_new (by simp [NoneLost, new]) acts

/-- What is lost stays lost. -/
theorem lost_step {w w' : TaskLedger} {a : Act} (h : Sound w) (hlost : ∃ t ∈ w.tasks, t.Lost)
    (hstep : w.step a = some w') : ∃ t ∈ w'.tasks, t.Lost := by
  obtain ⟨t, hmem, hlost⟩ := hlost
  obtain ⟨id, ht⟩ := List.mem_iff_getElem?.1 hmem
  have hlt := (List.getElem?_eq_some_iff.1 ht).1
  have hother : ∀ (j : Nat) (t' : BgTask), j ≠ id → t ∈ w.tasks.set j t' := fun j t' hj =>
    List.mem_iff_getElem?.2 ⟨id, (List.getElem?_set_ne hj).trans ht⟩
  have hself : ∀ t' : BgTask, t' ∈ w.tasks.set id t' := fun t' =>
    List.mem_iff_getElem?.2 ⟨id, List.getElem?_set_self hlt⟩
  cases a with
  | register command =>
    obtain rfl := Option.some.inj hstep
    exact ⟨t, List.mem_append_left _ hmem, hlost⟩
  | cancel j =>
    simp only [step] at hstep
    split at hstep
    · next x hx =>
      obtain rfl := Option.some.inj hstep
      by_cases hj : j = id
      · subst hj
        obtain rfl : t = x := by simpa [ht] using hx
        exact ⟨t.cancel, hself _, BgTask.lost_stays_cancel hlost⟩
      · exact ⟨t, hother j _ hj, hlost⟩
    · obtain rfl := Option.some.inj hstep
      exact ⟨t, hmem, hlost⟩
  | task j a =>
    obtain ⟨x, hx, hstep⟩ := Option.bind_eq_some_iff.1 hstep
    obtain ⟨p, hp, rfl⟩ := Option.map_eq_some_iff.1 hstep
    by_cases hj : j = id
    · subst hj
      obtain rfl : t = x := by simpa [ht] using hx
      exact ⟨p.1, hself _, BgTask.lost_stays (h.tasks t hmem) hlost hp⟩
    · exact ⟨t, hother j _ hj, hlost⟩

theorem kept_of_noneLost {w : TaskLedger} (h : Sound w) (hnone : NoneLost w) : Kept w := fun t ht =>
  BgTask.kept_of_not_lost (h.tasks t ht) (hnone t ht)

/-- Where every task has ended, what was kept in the end was never lost. -/
theorem allStates_noneLost_of_kept {w : TaskLedger} {acts : List Act} (hrun : Steps.exec step new acts = some w)
    (hended : ∀ t ∈ w.tasks, t.tracker = .ended) (hkept : Kept w) : Steps.AllStates step NoneLost new acts := by
  rw [Steps.allStates_iff]
  rintro pre v ⟨suf, rfl⟩ hpre t ht hlost
  obtain ⟨u, hu, hsuf⟩ := Steps.exec_append_eq_some.1 hrun
  obtain rfl : v = u := Option.some.inj (hpre.symm.trans hu)
  have hv : Sound v := Steps.exec_invariant (fun _ _ _ h hs => step_sound h hs) sound_new hpre
  obtain ⟨hw, t', ht', hlost'⟩ := Steps.exec_invariant (I := fun v => Sound v ∧ ∃ t ∈ v.tasks, t.Lost)
    (fun _ _ _ h hs => ⟨step_sound h.1 hs, lost_step h.1 h.2 hs⟩) ⟨hv, t, ht, hlost⟩ hsuf
  exact BgTask.not_kept_of_lost (hw.tasks t' ht') hlost' (hended t' ht') (hkept t' ht')

/-- In every run a task that has ended has had exactly one terminal update, with its state, and keeps that
state; a task that was cancelled or whose lines have ended can go on to its end.  What was promised by a
cancel is kept as long as every step heeds it, and in a run in which every task comes to its end only then. -/
theorem cancel_kept (acts : List Act) {w : TaskLedger} (hrun : Steps.exec step new acts = some w) :
    (∀ (id : Nat) (t : BgTask), w.tasks[id]? = some t →
      w.terminals id = (if t.state.isTerminal then [t.state] else []) ∧
      (t.state.isTerminal = true → ∀ later w', Steps.exec step w later = some w' →
        ∃ t', w'.tasks[id]? = some t' ∧ t'.state = t.state) ∧
      (t.state.isTerminal = false → t.closed = true ∨ t.cancelled = true →
        ∃ a ∈ [TaskAct.takesCancel, .takesLine, .finishes], (w.step (.task id a)).isSome = true)) ∧
    (Steps.AllSteps step (fun w a _ => Heeded w a) new acts → Steps.AllStates step Kept new acts) ∧
    ((∀ t ∈ w.tasks, t.tracker = .ended) → Steps.AllStates step Kept new acts →
      Steps.AllSteps step (fun w a _ => Heeded w a) new acts) := by
  have hsound : Sound w := Steps.exec_invariant (fun _ _ _ h hs => step_sound h hs) sound_new hrun
  refine ⟨?_, ?_, ?_⟩
  · intro id t ht
    refine ⟨hsound.told id t ht, fun hterminal later w' hlater => stays hsound hlater ht hterminal, ?_⟩
    intro hrunning hready
    have htask := hsound.tasks t (List.mem_of_getElem? ht)
    have hnot : t.tracker ≠ .ended := fun hended => by
      simp [htask.terminal hended] at hrunning
    obtain ⟨a, ha, hact⟩ := BgTask.act_enabled htask hnot hready
    exact ⟨a, ha, by simp [step, ht, hact]⟩
  · intro hheeded
    have hnone := (allStates_noneLost acts).2 hheeded
    rw [Steps.allStates_iff] at hnone ⊢
    intro pre v hpre hv
    exact kept_of_noneLost (Steps.exec_invariant (fun _ _ _ h hs => step_sound h hs) sound_new hv) (hnone pre v hpre hv)
  · intro hended hkept
    rw [← allStates_noneLost]
    exact allStates_noneLost_of_kept hrun hended (Steps.allStates_iff.1 hkept acts w (List.prefix_refl _) hrun)

/-- A task that is cancelled after its first line. -/
def cancelledActs : List Act :=
  [.register "sleep 60", .task 0 (.line "started"), .task 0 .takesLine, .cancel 0, .task 0 .takesCancel]

theorem cancel_kept_sleep : ∃ w, Steps.exec step new cancelledActs = some w ∧ w.terminals 0 = [.cancelled] := by
  have hrun : (Steps.exec step new cancelledActs).map (fun w => w.tasks[0]?.map (·.state)) =
      some (some .cancelled) := rfl
  obtain ⟨w, hw, hstate⟩ := Option.map_eq_some_iff.1 hrun
  obtain ⟨t, ht, hcancelled⟩ := Option.map_eq_some_iff.1 hstate
  have htold := ((cancel_kept cancelledActs hw).1 0 t ht).1
  rw [hcancelled] at htold
  exact ⟨w, hw, htold⟩

/-- The process has ended by itself when the cancel comes, and the tracker takes the end of the output
instead of the cancellation. -/
def endedActs : List Act :=
  [.register "true", .task 0 (.exits (some 0)), .task 0 .sendsCode, .task 0 .closes, .cancel 0,
    .task 0 .takesLine, .task 0 .finishes]

theorem cancel_kept_fails : ¬ Steps.AllStates step Kept new endedActs := by
  have hrun : (Steps.exec step new endedActs).map (fun w => w.tasks.map fun t => (t.promised, t.state)) =
      some [(true, .done)] := rfl
  obtain ⟨w, hw, htasks⟩ := Option.map_eq_some_iff.1 hrun
  have hmem : (true, TaskState.done) ∈ w.tasks.map fun t => (t.promised, t.state) := by simp [htasks]
  obtain ⟨t, ht, heq⟩ := List.mem_map.1 hmem
  obtain ⟨hpromised, hdone⟩ := Prod.mk.inj heq
  intro h
  rcases Steps.allStates_iff.1 h _ w (List.prefix_refl _) hw t ht hpromised with hstate | hstate
  · simp [hdone] at hstate
  · simp [hdone] at hstate

end TaskLedger

end OhMyClaw
