import OhMyClaw.Server.Session

/-!
# Nobody waits in vain

The actor keeps four things in step: the active slot, the queue, the parked sinks and the
event logs.  `Lane` is what a submitter relies on: an accepted run is active, waiting or was
started, and exactly the waiting turns have a parked sink.  A hard abort empties the queue
and nothing else, so it is the one command that breaks `Lane`, and it does so whenever a turn
is waiting.

    lane_iff                    `Lane` all along a run of commands, exactly without such an abort
    lane_fails_on_hard_abort    the shortest run that breaks it
-/

namespace OhMyClaw

namespace Actor

/-- The ids of the turns that wait. -/
def waiting (a : Actor) : List String := a.queue.pendingIds

/-- What a submitter relies on. -/
structure Lane (a : Actor) : Prop where
  accepted : ∀ r ∈ a.accepted,
    a.active.map (·.runId) = some r ∨ r ∈ a.waiting ∨ r ∈ a.startedIds
  sinks : ∀ r, r ∈ a.sinks ↔ r ∈ a.waiting
  runLogs : ∀ r ∈ a.runLogs, a.active.map (·.runId) = some r ∨ r ∈ a.waiting

/-- What no command breaks. -/
structure Bookkeeping (a : Actor) : Prop where
  /-- The active slot and the queue name the same run. -/
  active : a.queue.active = a.active.map (·.runId)
  /-- An idle lane has nothing waiting. -/
  idle : a.active = none → a.waiting = []
  active_started : ∀ r, a.active.map (·.runId) = some r → r ∈ a.startedIds
  waiting_nodup : a.waiting.Nodup
  waiting_new : ∀ r ∈ a.waiting, r ∉ a.startedIds
  waiting_accepted : ∀ r ∈ a.waiting, r ∈ a.accepted
  waiting_issued : ∀ r ∈ a.waiting, r ∈ a.issued
  started_issued : ∀ r ∈ a.startedIds, r ∈ a.issued
  sinks_issued : ∀ r ∈ a.sinks, r ∈ a.issued
  runLogs_issued : ∀ r ∈ a.runLogs, r ∈ a.issued
  issued_nonempty : ∀ r ∈ a.issued, r ≠ ""

/-- A hard abort while a turn is waiting. -/
def Loses (a : Actor) : Cmd → Prop
  | .abort _ true => a.waiting ≠ []
  | _ => False

theorem new_bookkeeping (cfg : ActorCfg) (now : Nat) : Bookkeeping (new cfg now) := by
  constructor <;> simp [new, waiting, startedIds, RunQueue.new, RunQueue.pendingIds]

theorem new_lane (cfg : ActorCfg) (now : Nat) : Lane (new cfg now) := by
  constructor <;> simp [new, waiting, RunQueue.new, RunQueue.pendingIds]

/-! ## What each command does -/

theorem step_eq_some {cfg : ActorCfg} {a b : Actor} {c : Cmd} :
    step cfg a c = some b ↔ a.closed = false ∧ Admissible a c = true ∧ b = handle cfg a c := by
  unfold step
  split
  · next h =>
    simp only [Bool.and_eq_true, Bool.not_eq_true'] at h
    simp [h.1, h.2, eq_comm]
  · next h =>
    simp only [Bool.and_eq_true, Bool.not_eq_true', not_and] at h
    simp only [reduceCtorEq, false_iff]
    rintro ⟨h₁, h₂, _⟩
    exact h h₁ h₂

/-- Queue, sinks, logs and records are left alone, and the active run but for its token. -/
structure SameLane (a b : Actor) : Prop where
  queue : b.queue = a.queue
  active : b.active.map (·.runId) = a.active.map (·.runId)
  sinks : b.sinks = a.sinks
  runLogs : b.runLogs = a.runLogs
  issued : b.issued = a.issued
  accepted : b.accepted = a.accepted
  started : b.started = a.started

theorem SameLane.refl (a : Actor) : SameLane a a := ⟨rfl, rfl, rfl, rfl, rfl, rfl, rfl⟩

theorem SameLane.cancelActive (a : Actor) : SameLane a a.cancelActive := by
  refine ⟨rfl, ?_, rfl, rfl, rfl, rfl, rfl⟩
  simp [Actor.cancelActive, Function.comp_def]

theorem SameLane.waiting {a b : Actor} (h : SameLane a b) : b.waiting = a.waiting := by
  simp only [Actor.waiting, h.queue]

theorem SameLane.startedIds {a b : Actor} (h : SameLane a b) : b.startedIds = a.startedIds := by
  simp only [Actor.startedIds, h.started]

theorem SameLane.lane {a b : Actor} (h : SameLane a b) (hl : Lane a) : Lane b := by
  constructor
  · rw [h.accepted, h.active, h.waiting, h.startedIds]
    exact hl.accepted
  · rw [h.sinks, h.waiting]
    exact hl.sinks
  · rw [h.runLogs, h.active, h.waiting]
    exact hl.runLogs

theorem SameLane.bookkeeping {a b : Actor} (h : SameLane a b) (hb : Bookkeeping a) :
    Bookkeeping b := by
  have hnone : b.active = none ↔ a.active = none := by
    rw [← Option.map_eq_none_iff (f := ActiveRun.runId), h.active, Option.map_eq_none_iff]
  constructor
  · rw [h.queue, h.active]
    exact hb.active
  · rw [h.waiting, hnone]
    exact hb.idle
  · rw [h.active, h.startedIds]
    exact hb.active_started
  · rw [h.waiting]
    exact hb.waiting_nodup
  · rw [h.waiting, h.startedIds]
    exact hb.waiting_new
  · rw [h.waiting, h.accepted]
    exact hb.waiting_accepted
  · rw [h.waiting, h.issued]
    exact hb.waiting_issued
  · rw [h.startedIds, h.issued]
    exact hb.started_issued
  · rw [h.sinks, h.issued]
    exact hb.sinks_issued
  · rw [h.runLogs, h.issued]
    exact hb.runLogs_issued
  · rw [h.issued]
    exact hb.issued_nonempty

/-- A soft abort sets at most the token. -/
theorem sameLane_onAbort_soft (a : Actor) (runId : String) : SameLane a (a.onAbort runId false) := by
  simp only [onAbort, Bool.false_eq_true, if_false]
  cases h : a.active with
  | none => exact .refl a
  | some r =>
    dsimp only
    split
    · exact .cancelActive a
    · exact .refl a

/-- The commands that can change who waits and who runs. -/
def movesLane : Cmd → Bool
  | .submit .. | .finished .. => true
  | .abort _ hard => hard
  | _ => false

theorem sameLane_handle (cfg : ActorCfg) (a : Actor) (c : Cmd) (hc : movesLane c = false) :
    SameLane a (handle cfg a c) := by
  cases c with
  | submit r t s n => cases hc
  | abort r hard =>
    obtain rfl : hard = false := hc
    exact sameLane_onAbort_soft a r
  | compact start => exact ⟨rfl, rfl, rfl, rfl, rfl, rfl, rfl⟩
  | finished r o n => cases hc
  | resume r => exact .refl a
  | healthScan now =>
    simp only [handle, onHealthScan]
    cases a.active with
    | none => exact .refl a
    | some r =>
      dsimp only
      split
      · exact .cancelActive a
      · exact .refl a
  | evictIfIdle idleAfter now =>
    simp only [handle, onEvictIfIdle]
    split
    · exact .refl a
    · exact ⟨rfl, rfl, rfl, rfl, rfl, rfl, rfl⟩
  | runProgress now => exact ⟨rfl, rfl, rfl, rfl, rfl, rfl, rfl⟩
  | runCancels => exact .cancelActive a
  | runTerminal =>
    simp only [handle]
    split
    · exact ⟨rfl, rfl, rfl, rfl, rfl, rfl, rfl⟩
    · exact .refl a

/-! ## Submit -/

@[simp] theorem park_queue (a : Actor) (r : String) (sink : RunSink) :
    (a.park r sink).queue = a.queue := rfl

theorem mem_park_sinks {a : Actor} {r x : String} {sink : RunSink} :
    x ∈ (a.park r sink).sinks ↔ x = r ∨ x ∈ a.sinks := by
  simp [park]

theorem mem_park_runLogs {a : Actor} {r x : String} {sink : RunSink}
    (h : x ∈ (a.park r sink).runLogs) : x = r ∨ x ∈ a.runLogs := by
  cases sink with
  | conn tx => exact .inr h
  | broadcast => exact .inr h
  | detached tx log => simpa [park] using h

/-- What a submitted turn can turn the actor into. -/
inductive Submitted (a : Actor) (r text : String) (b : Actor) : Prop
  /-- The lane was free and the turn has it now. -/
  | started (hfree : a.queue.active = none)
      (hqueue : b.queue = { a.queue with active := some r })
      (hactive : b.active.map (·.runId) = some r)
      (hsinks : ∀ x, x ∈ b.sinks ↔ x ∈ a.sinks ∧ x ≠ r)
      (hlogs : ∀ x ∈ b.runLogs, x = r ∨ x ∈ a.runLogs)
      (haccepted : b.accepted = a.accepted ++ [r])
      (hstarted : b.startedIds = a.startedIds ++ [r])
  /-- The lane was busy and the turn waits. -/
  | queued (hqueue : b.queue = { a.queue with pending := a.queue.pending ++ [{ runId := r, text }] })
      (hbusy : a.queue.active ≠ none)
      (hactive : b.active = a.active)
      (hsinks : ∀ x, x ∈ b.sinks ↔ x = r ∨ x ∈ a.sinks)
      (hlogs : ∀ x ∈ b.runLogs, x = r ∨ x ∈ a.runLogs)
      (haccepted : b.accepted = a.accepted ++ [r])
      (hstarted : b.startedIds = a.startedIds)
  /-- The queue was full and nothing remains of the turn. -/
  | rejected (hqueue : b.queue = a.queue)
      (hactive : b.active = a.active)
      (hsinks : ∀ x, x ∈ b.sinks ↔ x ∈ a.sinks ∧ x ≠ r)
      (hlogs : ∀ x ∈ b.runLogs, x ∈ a.runLogs)
      (haccepted : b.accepted = a.accepted)
      (hstarted : b.startedIds = a.startedIds)

theorem submitted_onSubmit (a : Actor) (r text : String) (sink : RunSink) (now : Nat) :
    Submitted a r text (a.onSubmit r text sink now) := by
  have hlogs : ∀ x ∈ (a.park r sink).runLogs, x = r ∨ x ∈ a.runLogs :=
    fun x => mem_park_runLogs
  by_cases hfree : a.queue.active = none
  · have hsub : a.queue.submit { runId := r, text } =
        ({ a.queue with active := some r }, .started { runId := r, text }) := by
      simp only [RunQueue.submit, hfree, if_true]
    refine .started hfree ?_ ?_ ?_ ?_ ?_ ?_
    all_goals simp only [onSubmit, park, beginRun, hsub, startedIds, Option.map_some]
    · intro x
      rw [AList.mem_erase, AList.mem_insert]
      constructor
      · rintro ⟨hne, rfl | h⟩
        · exact absurd rfl hne
        · exact ⟨h, hne⟩
      · rintro ⟨h, hne⟩
        exact ⟨hne, .inr h⟩
    · exact hlogs
    · simp
  · by_cases hfull : a.queue.cap ≤ a.queue.pending.length
    · have hsub : a.queue.submit { runId := r, text } = (a.queue, .rejected) := by
        simp only [RunQueue.submit, hfree, hfull, if_false, if_true]
      refine .rejected ?_ ?_ ?_ ?_ ?_ ?_
      all_goals simp only [onSubmit, park_queue, hsub, startedIds]
      any_goals rfl
      · intro x
        rw [AList.mem_erase, mem_park_sinks]
        constructor
        · rintro ⟨hne, rfl | h⟩
          · exact absurd rfl hne
          · exact ⟨h, hne⟩
        · rintro ⟨h, hne⟩
          exact ⟨hne, .inr h⟩
      · intro x hx
        rw [AList.mem_erase] at hx
        exact (hlogs x hx.2).resolve_left hx.1
    · have hsub : a.queue.submit { runId := r, text } =
          ({ a.queue with pending := a.queue.pending ++ [{ runId := r, text }] }, .queued) := by
        simp only [RunQueue.submit, hfree, hfull, if_false]
      refine .queued ?_ hfree ?_ ?_ ?_ ?_ ?_
      all_goals simp only [onSubmit, park_queue, hsub, startedIds]
      any_goals rfl
      · intro x
        exact mem_park_sinks
      · exact hlogs

@[simp] theorem issued_onSubmit (a : Actor) (r text : String) (sink : RunSink) (now : Nat) :
    (a.onSubmit r text sink now).issued = a.issued ++ [r] := by
  simp only [onSubmit]
  split <;> rfl

/-- In a free lane nothing runs and nothing waits. -/
theorem Bookkeeping.free {a : Actor} (hb : Bookkeeping a) (hfree : a.queue.active = none) :
    a.active = none ∧ a.waiting = [] := by
  have hnone : a.active = none := by
    rw [← Option.map_eq_none_iff (f := ActiveRun.runId), ← hb.active, hfree]
  exact ⟨hnone, hb.idle hnone⟩

/-- The only new name is that of the submitted turn. -/
structure NamesAtMost (a b : Actor) (r : String) : Prop where
  waiting : ∀ x ∈ b.waiting, x ∈ a.waiting ∨ x = r
  started : ∀ x ∈ b.startedIds, x ∈ a.startedIds ∨ x = r
  sinks : ∀ x ∈ b.sinks, x ∈ a.sinks ∨ x = r
  runLogs : ∀ x ∈ b.runLogs, x ∈ a.runLogs ∨ x = r

theorem Submitted.names {a b : Actor} {r text : String} (hsub : Submitted a r text b) :
    NamesAtMost a b r := by
  cases hsub with
  | started hfree hqueue hactive hsinks hlogs haccepted hstarted =>
    constructor
    · intro x hx
      exact .inl (by simpa [waiting, RunQueue.pendingIds, hqueue] using hx)
    · intro x hx
      rwa [hstarted, List.mem_append, List.mem_singleton] at hx
    · intro x hx
      exact .inl ((hsinks x).1 hx).1
    · intro x hx
      exact (hlogs x hx).symm
  | queued hqueue hbusy hactive hsinks hlogs haccepted hstarted =>
    constructor
    · intro x hx
      simpa [waiting, RunQueue.pendingIds, hqueue] using hx
    · intro x hx
      exact .inl (hstarted ▸ hx)
    · intro x hx
      exact ((hsinks x).1 hx).symm
    · intro x hx
      exact (hlogs x hx).symm
  | rejected hqueue hactive hsinks hlogs haccepted hstarted =>
    constructor
    · intro x hx
      exact .inl (by simpa only [waiting, hqueue] using hx)
    · intro x hx
      exact .inl (hstarted ▸ hx)
    · intro x hx
      exact .inl ((hsinks x).1 hx).1
    · intro x hx
      exact .inl (hlogs x hx)

theorem Bookkeeping.submit {a b : Actor} {r text : String} (hb : Bookkeeping a)
    (hsub : Submitted a r text b) (hissued : b.issued = a.issued ++ [r]) (hne : r ≠ "")
    (hnew : r ∉ a.issued) : Bookkeeping b := by
  have hnowait : r ∉ a.waiting := fun h => hnew (hb.waiting_issued r h)
  have hnostart : r ∉ a.startedIds := fun h => hnew (hb.started_issued r h)
  have hmem : ∀ x, x ∈ b.issued ↔ x ∈ a.issued ∨ x = r := by simp [hissued]
  have hnames := hsub.names
  have waiting_issued : ∀ x ∈ b.waiting, x ∈ b.issued := fun x hx =>
    (hmem x).2 ((hnames.waiting x hx).imp_left (hb.waiting_issued x))
  have started_issued : ∀ x ∈ b.startedIds, x ∈ b.issued := fun x hx =>
    (hmem x).2 ((hnames.started x hx).imp_left (hb.started_issued x))
  have sinks_issued : ∀ x ∈ b.sinks, x ∈ b.issued := fun x hx =>
    (hmem x).2 ((hnames.sinks x hx).imp_left (hb.sinks_issued x))
  have runLogs_issued : ∀ x ∈ b.runLogs, x ∈ b.issued := fun x hx =>
    (hmem x).2 ((hnames.runLogs x hx).imp_left (hb.runLogs_issued x))
  have issued_nonempty : ∀ x ∈ b.issued, x ≠ "" := by
    intro x hx
    rcases (hmem x).1 hx with h | rfl
    · exact hb.issued_nonempty x h
    · exact hne
  cases hsub with
  | started hfree hqueue hactive hsinks hlogs haccepted hstarted =>
    obtain ⟨-, hidle⟩ := hb.free hfree
    have hwait : b.waiting = [] := by
      simpa [waiting, RunQueue.pendingIds, hqueue] using hidle
    refine ⟨?_, fun _ => hwait, ?_, by simp [hwait], by simp [hwait], by simp [hwait],
      waiting_issued, started_issued, sinks_issued, runLogs_issued, issued_nonempty⟩
    · rw [hqueue, hactive]
    · intro x hx
      rw [hactive, Option.some_inj] at hx
      simp [hstarted, hx]
  | queued hqueue hbusy hactive hsinks hlogs haccepted hstarted =>
    have hwait : b.waiting = a.waiting ++ [r] := by
      simp [waiting, RunQueue.pendingIds, hqueue]
    refine ⟨?_, ?_, ?_, ?_, ?_, ?_, waiting_issued, started_issued, sinks_issued, runLogs_issued,
      issued_nonempty⟩
    · rw [hqueue, hactive]
      exact hb.active
    · intro h
      rw [hactive] at h
      rw [hb.active, h] at hbusy
      exact absurd rfl hbusy
    · rw [hactive, hstarted]
      exact hb.active_started
    · rw [hwait, List.nodup_append]
      refine ⟨hb.waiting_nodup, by simp, ?_⟩
      intro x hx y hy
      rw [List.mem_singleton] at hy
      rintro rfl
      exact hnowait (hy ▸ hx)
    · intro x hx
      rw [hstarted]
      rcases hnames.waiting x hx with h | rfl
      · exact hb.waiting_new x h
      · exact hnostart
    · intro x hx
      rw [haccepted, List.mem_append, List.mem_singleton]
      exact (hnames.waiting x hx).imp_left (hb.waiting_accepted x)
  | rejected hqueue hactive hsinks hlogs haccepted hstarted =>
    have hwait : b.waiting = a.waiting := by simp only [waiting, hqueue]
    refine ⟨?_, ?_, ?_, ?_, ?_, ?_, waiting_issued, started_issued, sinks_issued, runLogs_issued,
      issued_nonempty⟩
    · rw [hqueue, hactive]
      exact hb.active
    · rw [hactive, hwait]
      exact hb.idle
    · rw [hactive, hstarted]
      exact hb.active_started
    · rw [hwait]
      exact hb.waiting_nodup
    · rw [hwait, hstarted]
      exact hb.waiting_new
    · rw [hwait, haccepted]
      exact hb.waiting_accepted

theorem Lane.submit {a b : Actor} {r text : String} (hb : Bookkeeping a) (hl : Lane a)
    (hsub : Submitted a r text b) (hnew : r ∉ a.issued) : Lane b := by
  cases hsub with
  | started hfree hqueue hactive hsinks hlogs haccepted hstarted =>
    obtain ⟨hnone, hidle⟩ := hb.free hfree
    have hwait : b.waiting = [] := by
      simpa [waiting, RunQueue.pendingIds, hqueue] using hidle
    constructor
    · intro x hx
      rw [haccepted, List.mem_append, List.mem_singleton] at hx
      rcases hx with h | rfl
      · rw [hstarted, List.mem_append]
        rcases hl.accepted x h with h | h | h
        · simp [hnone] at h
        · simp [hidle] at h
        · exact .inr (.inr (.inl h))
      · exact .inl hactive
    · intro x
      rw [hsinks, hl.sinks, hidle, hwait]
      simp
    · intro x hx
      rcases hlogs x hx with rfl | h
      · exact .inl hactive
      · rcases hl.runLogs x h with h | h
        · simp [hnone] at h
        · simp [hidle] at h
  | queued hqueue hbusy hactive hsinks hlogs haccepted hstarted =>
    have hmem : ∀ x, x ∈ b.waiting ↔ x ∈ a.waiting ∨ x = r := by
      simp [waiting, RunQueue.pendingIds, hqueue]
    constructor
    · intro x hx
      rw [haccepted, List.mem_append, List.mem_singleton] at hx
      rw [hactive, hstarted, hmem]
      rcases hx with h | rfl
      · rcases hl.accepted x h with h | h | h
        · exact .inl h
        · exact .inr (.inl (.inl h))
        · exact .inr (.inr h)
      · exact .inr (.inl (.inr rfl))
    · intro x
      rw [hsinks, hl.sinks, hmem, or_comm]
    · intro x hx
      rw [hactive, hmem]
      rcases hlogs x hx with rfl | h
      · exact .inr (.inr rfl)
      · exact (hl.runLogs x h).imp_right .inl
  | rejected hqueue hactive hsinks hlogs haccepted hstarted =>
    have hwait : b.waiting = a.waiting := by simp only [waiting, hqueue]
    constructor
    · rw [haccepted, hactive, hwait, hstarted]
      exact hl.accepted
    · intro x
      rw [hsinks, hl.sinks, hwait]
      exact ⟨And.left, fun h => ⟨h, fun hx => hnew (hx ▸ hb.waiting_issued x h)⟩⟩
    · rw [hactive, hwait]
      intro x hx
      exact hl.runLogs x (hlogs x hx)

/-! ## Hard abort -/

/-- A hard abort is a soft one with the waiting turns forgotten. -/
theorem onAbort_hard (a : Actor) (r : String) :
    ∃ b, SameLane a b ∧ a.onAbort r true = { b with queue := { b.queue with pending := [] } } := by
  refine ⟨a.onAbort r false, sameLane_onAbort_soft a r, ?_⟩
  rcases a with ⟨queue, _ | run, _⟩
  · rfl
  · simp only [onAbort, if_true, Bool.false_eq_true, if_false]
    split <;> rfl

/-- Forgetting the waiting turns keeps the books. -/
theorem Bookkeeping.drain {a : Actor} (hb : Bookkeeping a) :
    Bookkeeping { a with queue := { a.queue with pending := [] } } := by
  constructor <;> simp only [waiting, RunQueue.pendingIds, List.map_nil, List.not_mem_nil,
    false_implies, implies_true, List.nodup_nil]
  · exact hb.active
  · exact hb.active_started
  · exact hb.started_issued
  · exact hb.sinks_issued
  · exact hb.runLogs_issued
  · exact hb.issued_nonempty

/-- Forgetting the waiting turns breaks the lane exactly if there are any. -/
theorem lane_drain_iff {a : Actor} (hb : Bookkeeping a) (hl : Lane a) :
    Lane { a with queue := { a.queue with pending := [] } } ↔ a.waiting = [] := by
  constructor
  · intro h
    by_contra hne
    obtain ⟨x, hx⟩ := List.exists_mem_of_ne_nil _ hne
    rcases h.accepted x (hb.waiting_accepted x hx) with hact | hmem | hst
    · exact hb.waiting_new x hx (hb.active_started x hact)
    · simp [waiting, RunQueue.pendingIds] at hmem
    · exact hb.waiting_new x hx hst
  · intro h
    have hp : a.queue.pending = [] := by simpa [waiting, RunQueue.pendingIds] using h
    have heq : { a with queue := { a.queue with pending := [] } } = a := by rw [← hp]
    rw [heq]
    exact hl

/-! ## Finished -/

/-- What the end of run `r` can turn the actor into. -/
inductive Ended (a : Actor) (r : String) (b : Actor) : Prop
  /-- The report of a run that is not active is ignored. -/
  | stale (hsame : SameLane a b)
  /-- The lane falls idle. -/
  | idle (hwas : a.active.map (·.runId) = some r) (hnone : a.queue.pending = [])
      (hqueue : b.queue = { a.queue with active := none })
      (hactive : b.active = none)
      (hsinks : ∀ x, x ∈ b.sinks ↔ x ∈ a.sinks ∧ x ≠ r)
      (hlogs : ∀ x, x ∈ b.runLogs ↔ x ∈ a.runLogs ∧ x ≠ r)
      (haccepted : b.accepted = a.accepted)
      (hstarted : b.startedIds = a.startedIds)
  /-- The first waiting turn has the lane now. -/
  | next (turn : QueuedTurn) (rest : List QueuedTurn)
      (hwas : a.active.map (·.runId) = some r) (hpending : a.queue.pending = turn :: rest)
      (hqueue : b.queue = { a.queue with active := some turn.runId, pending := rest })
      (hactive : b.active.map (·.runId) = some turn.runId)
      (hsinks : ∀ x, x ∈ b.sinks ↔ (x ∈ a.sinks ∧ x ≠ r) ∧ x ≠ turn.runId)
      (hlogs : ∀ x, x ∈ b.runLogs ↔ x ∈ a.runLogs ∧ x ≠ r)
      (haccepted : b.accepted = a.accepted)
      (hstarted : b.startedIds = a.startedIds ++ [turn.runId])

theorem ended_onFinished (a : Actor) (r : String) (now : Nat) : Ended a r (a.onFinished r now) := by
  by_cases hwas : a.active.map (·.runId) = some r
  · cases hp : a.queue.pending with
    | nil =>
      refine .idle hwas hp ?_ ?_ ?_ ?_ ?_ ?_
      all_goals simp [onFinished, hwas, RunQueue.completeActive, hp, startedIds, and_comm]
    | cons turn rest =>
      refine .next turn rest hwas hp ?_ ?_ ?_ ?_ ?_ ?_
      all_goals simp [onFinished, beginRun, hwas, RunQueue.completeActive, hp, startedIds, and_comm]
  · refine .stale ?_
    simp only [onFinished, hwas, if_false]
    exact ⟨rfl, rfl, rfl, rfl, rfl, rfl, rfl⟩

/-- The turn that gets the lane leaves the head of the queue, and waits nowhere else. -/
theorem Bookkeeping.waiting_next {a b : Actor} {turn : QueuedTurn} {rest : List QueuedTurn} (hb : Bookkeeping a)
    (hpending : a.queue.pending = turn :: rest)
    (hqueue : b.queue = { a.queue with active := some turn.runId, pending := rest }) :
    a.waiting = turn.runId :: b.waiting ∧ turn.runId ∉ b.waiting ∧ b.waiting.Nodup := by
  have hold : a.waiting = turn.runId :: b.waiting := by
    simp [waiting, RunQueue.pendingIds, hqueue, hpending]
  refine ⟨hold, ?_⟩
  rw [← List.nodup_cons, ← hold]
  exact hb.waiting_nodup

@[simp] theorem issued_onFinished (a : Actor) (r : String) (now : Nat) :
    (a.onFinished r now).issued = a.issued := by
  simp only [onFinished]
  split
  · split <;> rfl
  · rfl

theorem Bookkeeping.finished {a b : Actor} {r : String} (hb : Bookkeeping a) (hend : Ended a r b)
    (hissued : b.issued = a.issued) : Bookkeeping b := by
  cases hend with
  | stale hsame => exact hsame.bookkeeping hb
  | idle hwas hnone hqueue hactive hsinks hlogs haccepted hstarted =>
    have hwait : b.waiting = [] := by simp [waiting, RunQueue.pendingIds, hqueue, hnone]
    constructor
    · simp [hqueue, hactive]
    · intro _
      exact hwait
    · simp [hactive]
    · simp [hwait]
    · simp [hwait]
    · simp [hwait]
    · simp [hwait]
    · rw [hstarted, hissued]
      exact hb.started_issued
    · rw [hissued]
      intro x hx
      exact hb.sinks_issued x ((hsinks x).1 hx).1
    · rw [hissued]
      intro x hx
      exact hb.runLogs_issued x ((hlogs x).1 hx).1
    · rw [hissued]
      exact hb.issued_nonempty
  | next turn rest hwas hpending hqueue hactive hsinks hlogs haccepted hstarted =>
    obtain ⟨hold, hturn, hnodup⟩ := hb.waiting_next hpending hqueue
    have hsub : ∀ x ∈ b.waiting, x ∈ a.waiting := by simp +contextual [hold]
    have hissuedTurn : turn.runId ∈ a.issued := hb.waiting_issued _ (by simp [hold])
    constructor
    · rw [hqueue, hactive]
    · intro h
      simp [h] at hactive
    · intro x hx
      rw [hactive, Option.some_inj] at hx
      simp [hstarted, hx]
    · exact hnodup
    · intro x hx
      rw [hstarted, List.mem_append, List.mem_singleton, not_or]
      exact ⟨hb.waiting_new x (hsub x hx), fun h => hturn (h ▸ hx)⟩
    · rw [haccepted]
      intro x hx
      exact hb.waiting_accepted x (hsub x hx)
    · rw [hissued]
      intro x hx
      exact hb.waiting_issued x (hsub x hx)
    · intro x hx
      rw [hstarted, List.mem_append, List.mem_singleton] at hx
      rw [hissued]
      rcases hx with h | rfl
      · exact hb.started_issued x h
      · exact hissuedTurn
    · rw [hissued]
      intro x hx
      exact hb.sinks_issued x ((hsinks x).1 hx).1.1
    · rw [hissued]
      intro x hx
      exact hb.runLogs_issued x ((hlogs x).1 hx).1
    · rw [hissued]
      exact hb.issued_nonempty

/-- The end of a run moves it from the active slot to the past, and the first waiting turn from
the queue to the active slot. -/
theorem Lane.finished {a b : Actor} {r : String} (hb : Bookkeeping a) (hl : Lane a)
    (hend : Ended a r b) : Lane b := by
  cases hend with
  | stale hsame => exact hsame.lane hl
  | idle hwas hnone hqueue hactive hsinks hlogs haccepted hstarted =>
    have hwait : a.waiting = [] := by simp [waiting, RunQueue.pendingIds, hnone]
    have hwait' : b.waiting = [] := by simp [waiting, RunQueue.pendingIds, hqueue, hnone]
    constructor
    · intro x hx
      rw [haccepted] at hx
      rw [hstarted]
      rcases hl.accepted x hx with h | h | h
      · exact .inr (.inr (hb.active_started x h))
      · simp [hwait] at h
      · exact .inr (.inr h)
    · intro x
      rw [hsinks, hl.sinks, hwait, hwait']
      simp
    · intro x hx
      obtain ⟨hmem, hne⟩ := (hlogs x).1 hx
      rcases hl.runLogs x hmem with h | h
      · rw [hwas, Option.some_inj] at h
        exact absurd h.symm hne
      · simp [hwait] at h
  | next turn rest hwas hpending hqueue hactive hsinks hlogs haccepted hstarted =>
    obtain ⟨hold, hturn, -⟩ := hb.waiting_next hpending hqueue
    constructor
    · intro x hx
      rw [haccepted] at hx
      rw [hstarted, List.mem_append]
      rcases hl.accepted x hx with h | h | h
      · exact .inr (.inr (.inl (hb.active_started x h)))
      · rw [hold, List.mem_cons] at h
        rcases h with rfl | h
        · exact .inl hactive
        · exact .inr (.inl h)
      · exact .inr (.inr (.inl h))
    · intro x
      rw [hsinks, hl.sinks, hold, List.mem_cons]
      constructor
      · rintro ⟨⟨rfl | h, -⟩, hne⟩
        · exact absurd rfl hne
        · exact h
      · intro h
        refine ⟨⟨.inr h, ?_⟩, fun hx => hturn (hx ▸ h)⟩
        -- the run that ends was started, the turns that wait were not
        rintro rfl
        exact hb.waiting_new x (by simp [hold, h]) (hb.active_started x hwas)
    · intro x hx
      obtain ⟨hmem, hne⟩ := (hlogs x).1 hx
      rcases hl.runLogs x hmem with h | h
      · rw [hwas, Option.some_inj] at h
        exact absurd h.symm hne
      · rw [hold, List.mem_cons] at h
        rcases h with rfl | h
        · exact .inl hactive
        · exact .inr h

/-! ## Every command -/

/-- What a command can turn the actor into. -/
inductive Change (a : Actor) : Cmd → Actor → Prop
  | same {c : Cmd} {b : Actor} (hc : movesLane c = false) (h : SameLane a b) : Change a c b
  | submit {r text : String} {sink : RunSink} {now : Nat} {b : Actor} (hne : r ≠ "")
      (hnew : r ∉ a.issued) (hissued : b.issued = a.issued ++ [r]) (h : Submitted a r text b) :
      Change a (.submit r text sink now) b
  | hardAbort {r : String} {m : Actor} (h : SameLane a m) :
      Change a (.abort r true) { m with queue := { m.queue with pending := [] } }
  | finished {r : String} {o : RunOutcome} {now : Nat} {b : Actor} (hissued : b.issued = a.issued)
      (h : Ended a r b) : Change a (.finished r o now) b

theorem change_of_step {cfg : ActorCfg} {a b : Actor} {c : Cmd} (h : step cfg a c = some b) :
    Change a c b := by
  obtain ⟨-, hadm, rfl⟩ := step_eq_some.1 h
  cases c with
  | submit r text sink now =>
    simp only [Admissible, Bool.and_eq_true, decide_eq_true_eq, Bool.not_eq_true',
      List.contains_eq_mem, decide_eq_false_iff_not] at hadm
    exact .submit hadm.1 hadm.2 (issued_onSubmit a r text sink now)
      (submitted_onSubmit a r text sink now)
  | abort r hard =>
    cases hard with
    | false => exact .same rfl (sameLane_onAbort_soft a r)
    | true =>
      obtain ⟨m, hsame, heq⟩ := onAbort_hard a r
      rw [handle, heq]
      exact .hardAbort hsame
  | finished r o now => exact .finished (issued_onFinished a r now) (ended_onFinished a r now)
  | compact => exact .same rfl (sameLane_handle cfg a _ rfl)
  | resume => exact .same rfl (sameLane_handle cfg a _ rfl)
  | healthScan => exact .same rfl (sameLane_handle cfg a _ rfl)
  | evictIfIdle => exact .same rfl (sameLane_handle cfg a _ rfl)
  | runProgress => exact .same rfl (sameLane_handle cfg a _ rfl)
  | runCancels => exact .same rfl (sameLane_handle cfg a _ rfl)
  | runTerminal => exact .same rfl (sameLane_handle cfg a _ rfl)

theorem bookkeeping_step {cfg : ActorCfg} {a b : Actor} {c : Cmd} (hb : Bookkeeping a)
    (h : step cfg a c = some b) : Bookkeeping b := by
  cases change_of_step h with
  | same hc hsame => exact hsame.bookkeeping hb
  | submit hne hnew hissued hsub => exact hb.submit hsub hissued hne hnew
  | hardAbort hsame => exact (hsame.bookkeeping hb).drain
  | finished hissued hend => exact hb.finished hend hissued

theorem not_loses {a : Actor} {c : Cmd} (hc : movesLane c = false) : ¬ Loses a c := by
  cases c with
  | abort r hard =>
    obtain rfl : hard = false := hc
    exact id
  | _ => exact id

theorem lane_step_iff {cfg : ActorCfg} {a b : Actor} {c : Cmd} (hb : Bookkeeping a) (hl : Lane a)
    (h : step cfg a c = some b) : Lane b ↔ ¬ Loses a c := by
  cases change_of_step h with
  | same hc hsame => exact iff_of_true (hsame.lane hl) (not_loses hc)
  | submit hne hnew hissued hsub => exact iff_of_true (hl.submit hb hsub hnew) id
  | hardAbort hsame =>
    rw [lane_drain_iff (hsame.bookkeeping hb) (hsame.lane hl), hsame.waiting]
    simp [Loses]
  | finished hissued hend => exact iff_of_true (hl.finished hb hend) id

theorem bookkeeping_exec {cfg : ActorCfg} {now : Nat} {cmds : List Cmd} {a : Actor}
    (h : Steps.exec (step cfg) (new cfg now) cmds = some a) : Bookkeeping a :=
  Steps.exec_invariant (fun _ _ _ hb hs => bookkeeping_step hb hs) (new_bookkeeping cfg now) h

/-- Along any sequence of commands every accepted run stays active, waiting or started, and the
parked sinks are those of the waiting turns, exactly as long as no hard abort is handled while
turns wait. -/
theorem lane_iff (cfg : ActorCfg) (now : Nat) (cmds : List Cmd) :
    Steps.AllStates (step cfg) Lane (new cfg now) cmds ↔
      Steps.AllSteps (step cfg) (fun a c _ => ¬ Loses a c) (new cfg now) cmds :=
  Steps.allStates_iff_allSteps (fun _ _ _ hb hs => bookkeeping_step hb hs)
    (fun _ _ _ hb hl hs => lane_step_iff hb hl hs) (new_bookkeeping cfg now) (new_lane cfg now) cmds

/-- Two turns are submitted; the second has to wait. -/
def twoTurns : List Cmd := [.submit "a" "x" (.conn 1) 0, .submit "b" "y" (.conn 2) 1]

/-- The second turn was accepted; the abort of the first one drops it. -/
theorem lane_fails_on_hard_abort :
    ¬ Steps.AllStates (step testCfg) Lane (new testCfg 0) (twoTurns ++ [.abort "a" true]) := by
  intro h
  have hrun : (Steps.exec (step testCfg) (new testCfg 0) (twoTurns ++ [.abort "a" true])).map
      (fun t => (t.accepted, t.active.map (·.runId), t.waiting, t.startedIds)) =
      some (["a", "b"], some "a", [], ["a"]) := by decide
  obtain ⟨t, ht, heq⟩ := Option.map_eq_some_iff.1 hrun
  simp only [Prod.mk.injEq] at heq
  obtain ⟨hacc, hact, hwait, hst⟩ := heq
  have hlane := (Steps.allStates_iff.1 h) _ t (List.prefix_refl _) ht
  have hb := hlane.accepted "b" (by simp [hacc])
  simp [hact, hwait, hst] at hb

end Actor

end OhMyClaw
