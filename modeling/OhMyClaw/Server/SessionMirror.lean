import OhMyClaw.Server.SessionLane

/-!
# The diagnostics mirror of the actor

The actor writes its active run, how long the lane is busy and how many turns wait into the
diagnostics slot of its session; the health scan reads the last progress of the run back from
it.  `Mirrored` says that slot and actor agree between two commands.  Two commands break it: a
hard abort forgets the waiting turns and leaves their number, and a compaction borrows the slot
and clears it also when a run is active.

    mirrored_iff       slot and actor agree all along, exactly without these two
    justified_iff      a health scan stops only a run that shows no progress, exactly as long as it
                       meets no run that was compacted under and is only old, not idle
-/

namespace OhMyClaw

namespace Actor

/-- The slot agrees with the actor. -/
structure Mirrored (a : Actor) : Prop where
  activeRun : a.diag.active.map (·.runId) = a.active.map (·.runId)
  busy : a.diag.laneBusySince.isSome = a.active.isSome
  depth : a.diag.queueDepth = a.queue.pending.length

/-- The commands that leave the slot behind: a hard abort while turns wait and a compaction
while a run is active. -/
def Blurs (a : Actor) : Cmd → Prop
  | .abort _ true => a.waiting ≠ []
  | .compact _ => a.active ≠ none
  | _ => False

theorem new_mirrored (cfg : ActorCfg) (now : Nat) : Mirrored (new cfg now) := ⟨rfl, rfl, rfl⟩

/-! ## What each command leaves in the slot -/

theorem mirrored_beginRun {a : Actor} (h : a.diag.queueDepth = a.queue.pending.length) (turn : QueuedTurn)
    (now : Nat) : Mirrored (a.beginRun turn now) :=
  ⟨rfl, rfl, h⟩

/-- Only the token of the run changes. -/
theorem mirrored_of_sameLane {a b : Actor} (h : SameLane a b) (hdiag : b.diag = a.diag) :
    Mirrored b ↔ Mirrored a := by
  have hsome : b.active.isSome = a.active.isSome := by
    rw [← Option.isSome_map (f := ActiveRun.runId), h.active, Option.isSome_map]
  constructor
  · rintro ⟨h₁, h₂, h₃⟩
    refine ⟨?_, ?_, ?_⟩
    · rw [← hdiag, ← h.active, h₁]
    · rw [← hdiag, ← hsome, h₂]
    · rw [← hdiag, ← h.queue, h₃]
  · rintro ⟨h₁, h₂, h₃⟩
    refine ⟨?_, ?_, ?_⟩
    · rw [hdiag, h.active, h₁]
    · rw [hdiag, hsome, h₂]
    · rw [hdiag, h.queue, h₃]

theorem waiting_eq_nil {a : Actor} : a.waiting = [] ↔ a.queue.pending = [] := by
  simp [waiting, RunQueue.pendingIds]

/-- A submitted turn takes the idle lane, waits or is turned away. -/
theorem mirrored_onSubmit {a : Actor} (hm : Mirrored a) (r text : String) (sink : RunSink) (now : Nat) :
    Mirrored (a.onSubmit r text sink now) := by
  by_cases hfree : a.queue.active = none
  · have hsub : a.queue.submit { runId := r, text } =
        ({ a.queue with active := some r }, .started { runId := r, text }) := by
      simp only [RunQueue.submit, hfree, if_true]
    simp only [onSubmit, park_queue, hsub]
    have hdepth : a.diag.queueDepth = a.queue.pending.length := hm.depth
    apply mirrored_beginRun
    exact hdepth
  · by_cases hfull : a.queue.cap ≤ a.queue.pending.length
    · have hsub : a.queue.submit { runId := r, text } = (a.queue, .rejected) := by
        simp only [RunQueue.submit, hfree, hfull, if_false, if_true]
      simp only [onSubmit, park_queue, hsub]
      exact ⟨hm.activeRun, hm.busy, hm.depth⟩
    · have hsub : a.queue.submit { runId := r, text } =
          ({ a.queue with pending := a.queue.pending ++ [{ runId := r, text }] }, .queued) := by
        simp only [RunQueue.submit, hfree, hfull, if_false]
      simp only [onSubmit, park_queue, hsub]
      exact ⟨hm.activeRun, hm.busy, rfl⟩

theorem mirrored_onFinished {a : Actor} (hm : Mirrored a) (r : String) (now : Nat) :
    Mirrored (a.onFinished r now) := by
  by_cases hwas : a.active.map (·.runId) = some r
  · cases hp : a.queue.pending with
    | nil =>
      simp only [onFinished, hwas, if_true, RunQueue.completeActive, hp]
      have hdepth := hm.depth
      rw [hp] at hdepth
      exact ⟨rfl, rfl, hdepth⟩
    | cons turn rest =>
      simp only [onFinished, hwas, if_true, RunQueue.completeActive, hp]
      exact mirrored_beginRun rfl _ _
  · simp only [onFinished, hwas, if_false]
    exact ⟨hm.activeRun, hm.busy, hm.depth⟩

theorem diag_onAbort (a : Actor) (r : String) (hard : Bool) : (a.onAbort r hard).diag = a.diag := by
  rcases a with ⟨queue, _ | run, _⟩
  · cases hard <;> rfl
  · cases hard
    · simp only [onAbort, Bool.false_eq_true, if_false]
      split <;> rfl
    · simp only [onAbort, if_true]
      split <;> rfl

/-- A hard abort leaves the number of the turns it forgets. -/
theorem mirrored_onAbort_hard {a : Actor} (hm : Mirrored a) (r : String) :
    Mirrored (a.onAbort r true) ↔ a.waiting = [] := by
  obtain ⟨m, hsame, heq⟩ := onAbort_hard a r
  have hdiag : m.diag = a.diag := by
    rw [← diag_onAbort a r true, heq]
  have hmm : Mirrored m := (mirrored_of_sameLane hsame hdiag).2 hm
  rw [heq, waiting_eq_nil, ← hsame.queue]
  constructor
  · intro h
    have hzero : m.diag.queueDepth = 0 := h.depth
    rw [hmm.depth] at hzero
    exact List.eq_nil_of_length_eq_zero hzero
  · intro h
    refine ⟨hmm.activeRun, hmm.busy, ?_⟩
    show m.diag.queueDepth = 0
    rw [hmm.depth, h]
    rfl

/-- A compaction clears the slot, whoever holds the lane. -/
theorem mirrored_compact {a : Actor} (hm : Mirrored a) (cfg : ActorCfg) (start : Nat) :
    Mirrored (handle cfg a (.compact start)) ↔ a.active = none := by
  constructor
  · intro h
    have hnone : none = a.active.map (·.runId) := h.activeRun
    exact Option.map_eq_none_iff.1 hnone.symm
  · intro h
    refine ⟨?_, ?_, hm.depth⟩
    · show none = a.active.map (·.runId)
      rw [h]
      rfl
    · show false = a.active.isSome
      rw [h]
      rfl

/-- A report of progress dates the run in the slot and renames nothing. -/
theorem mirrored_progress {a : Actor} (hm : Mirrored a) (now : Nat) :
    Mirrored { a with diag := a.diag.progress now } := by
  refine ⟨?_, hm.busy, hm.depth⟩
  rw [← hm.activeRun]
  simp [DiagState.progress, Function.comp_def]

theorem mirrored_step_iff {cfg : ActorCfg} {a b : Actor} {c : Cmd} (hm : Mirrored a) (h : step cfg a c = some b) : Mirrored b ↔ ¬ Blurs a c := by
  obtain ⟨-, -, rfl⟩ := step_eq_some.1 h
  cases c with
  | submit r text sink now => exact iff_of_true (mirrored_onSubmit hm r text sink now) id
  | abort r hard =>
    cases hard with
    | false =>
      have hsame := sameLane_onAbort_soft a r
      exact iff_of_true ((mirrored_of_sameLane hsame (diag_onAbort a r false)).2 hm) id
    | true =>
      show Mirrored (a.onAbort r true) ↔ ¬ a.waiting ≠ []
      rw [mirrored_onAbort_hard hm r, not_not]
  | compact start =>
    rw [mirrored_compact hm]
    exact not_not.symm
  | finished r o now => exact iff_of_true (mirrored_onFinished hm r now) id
  | resume r => exact iff_of_true hm id
  | healthScan now =>
    refine iff_of_true ?_ id
    have hsame := sameLane_handle cfg a (.healthScan now) rfl
    refine (mirrored_of_sameLane hsame ?_).2 hm
    simp only [handle, onHealthScan]
    split
    · split <;> rfl
    · rfl
  | evictIfIdle idleAfter now =>
    refine iff_of_true ?_ id
    have hsame := sameLane_handle cfg a (.evictIfIdle idleAfter now) rfl
    refine (mirrored_of_sameLane hsame ?_).2 hm
    simp only [handle, onEvictIfIdle]
    split <;> rfl
  | runProgress now => exact iff_of_true (mirrored_progress hm now) id
  | runCancels => exact iff_of_true ((mirrored_of_sameLane (.cancelActive a) rfl).2 hm) id
  | runTerminal =>
    refine iff_of_true ?_ id
    have hsame := sameLane_handle cfg a .runTerminal rfl
    refine (mirrored_of_sameLane hsame ?_).2 hm
    simp only [handle]
    split <;> rfl

/-- Along any sequence of commands the slot names the active run, says that the lane is busy
exactly while there is one and counts the waiting turns, exactly as long as no hard abort is
handled while turns wait and no compaction while a run is active. -/
theorem mirrored_iff (cfg : ActorCfg) (now : Nat) (cmds : List Cmd) :
    Steps.AllStates (step cfg) Mirrored (new cfg now) cmds ↔
      Steps.AllSteps (step cfg) (fun a c _ => ¬ Blurs a c) (new cfg now) cmds := by
  have hstep : ∀ a c b, True → Mirrored a → step cfg a c = some b → (Mirrored b ↔ ¬ Blurs a c) :=
    fun _ _ _ _ hm hs => mirrored_step_iff hm hs
  exact Steps.allStates_iff_allSteps (fun _ _ _ _ _ => trivial) hstep trivial (new_mirrored cfg now) cmds

/-- A compaction while a run is active: the run goes on, and the slot has no run. -/
theorem mirrored_fails_on_compact :
    ¬ Steps.AllStates (step testCfg) Mirrored (new testCfg 0)
      [.submit "a" "x" (.conn 1) 0, .compact 1] := by
  intro h
  have hrun : (Steps.exec (step testCfg) (new testCfg 0)
      [.submit "a" "x" (.conn 1) 0, .compact 1]).map
        (fun t => (t.active.map (·.runId), t.diag.active.map (·.runId))) = some (some "a", none) := by
    decide
  obtain ⟨t, ht, heq⟩ := Option.map_eq_some_iff.1 hrun
  simp only [Prod.mk.injEq] at heq
  have hmirror := ((Steps.allStates_iff.1 h) _ t (List.prefix_refl _) ht).activeRun
  rw [heq.1, heq.2] at hmirror
  simp at hmirror

/-! ## The run in the slot -/

/-- What a command that leaves the run as it is makes of the run in the slot. -/
def slotAfter (live : Option RunLive) : Cmd → Option RunLive
  | .runProgress now => live.map fun r => { r with lastDeltaAt := some now }
  | .compact _ => none
  | _ => live

/-- The slot of a run that has just begun shows no progress. -/
def Begun (b : Actor) : Prop :=
  ∀ r, b.active = some r → ∃ live, b.diag.active = some live ∧ live.lastDeltaAt = none

theorem begun_beginRun (a : Actor) (turn : QueuedTurn) (now : Nat) : Begun (a.beginRun turn now) :=
  fun _ _ => ⟨_, rfl, rfl⟩

/-- A command leaves the run as it is, or another one or none is active behind it. -/
theorem slot_step {cfg : ActorCfg} {a b : Actor} {c : Cmd} (hb : Bookkeeping a)
    (h : step cfg a c = some b) :
    (b.active.map (·.runId) = a.active.map (·.runId) ∧ b.diag.active = slotAfter a.diag.active c) ∨
      (b.active.map (·.runId) ≠ a.active.map (·.runId) ∧ Begun b) := by
  obtain ⟨-, -, rfl⟩ := step_eq_some.1 h
  cases c with
  | submit r text sink now =>
    show (onSubmit a r text sink now).active.map _ = _ ∧ _ ∨ _
    by_cases hfree : a.queue.active = none
    · have hsub : a.queue.submit { runId := r, text } =
          ({ a.queue with active := some r }, .started { runId := r, text }) := by
        simp only [RunQueue.submit, hfree, if_true]
      right
      simp only [handle, onSubmit, park_queue, hsub]
      refine ⟨?_, begun_beginRun _ _ _⟩
      rw [(hb.free hfree).1]
      simp [beginRun]
    · left
      by_cases hfull : a.queue.cap ≤ a.queue.pending.length
      · have hsub : a.queue.submit { runId := r, text } = (a.queue, .rejected) := by
          simp only [RunQueue.submit, hfree, hfull, if_false, if_true]
        simp only [handle, onSubmit, park_queue, hsub]
        exact ⟨rfl, rfl⟩
      · have hsub : a.queue.submit { runId := r, text } =
            ({ a.queue with pending := a.queue.pending ++ [{ runId := r, text }] }, .queued) := by
          simp only [RunQueue.submit, hfree, hfull, if_false]
        simp only [handle, onSubmit, park_queue, hsub]
        exact ⟨rfl, rfl⟩
  | abort r hard =>
    left
    refine ⟨?_, congrArg DiagState.active (diag_onAbort a r hard)⟩
    cases hard with
    | false => exact (sameLane_onAbort_soft a r).active
    | true =>
      obtain ⟨m, hsame, heq⟩ := onAbort_hard a r
      show (a.onAbort r true).active.map _ = _
      rw [heq]
      exact hsame.active
  | compact start => exact Or.inl ⟨rfl, rfl⟩
  | finished r o now =>
    by_cases hwas : a.active.map (·.runId) = some r
    · right
      cases hp : a.queue.pending with
      | nil =>
        simp only [handle, onFinished, hwas, if_true, RunQueue.completeActive, hp]
        refine ⟨by simp, fun r' hr' => ?_⟩
        simp at hr'
      | cons turn rest =>
        simp only [handle, onFinished, hwas, if_true, RunQueue.completeActive, hp]
        refine ⟨?_, begun_beginRun _ _ _⟩
        have hwait : turn.runId ∈ a.waiting := by simp [waiting, RunQueue.pendingIds, hp]
        intro heq
        have hid : turn.runId = r := by simpa [beginRun] using heq
        exact hb.waiting_new _ hwait (hb.active_started _ (by rw [hid, hwas]))
    · left
      simp only [handle, onFinished, hwas, if_false]
      exact ⟨trivial, rfl⟩
  | resume r => exact Or.inl ⟨rfl, rfl⟩
  | healthScan now =>
    left
    refine ⟨(sameLane_handle cfg a (.healthScan now) rfl).active, ?_⟩
    simp only [handle, onHealthScan]
    split
    · split <;> rfl
    · rfl
  | evictIfIdle idleAfter now =>
    left
    refine ⟨(sameLane_handle cfg a (.evictIfIdle idleAfter now) rfl).active, ?_⟩
    simp only [handle, onEvictIfIdle]
    split <;> rfl
  | runProgress now => exact Or.inl ⟨rfl, rfl⟩
  | runCancels => exact Or.inl ⟨(SameLane.cancelActive a).active, rfl⟩
  | runTerminal =>
    left
    refine ⟨(sameLane_handle cfg a .runTerminal rfl).active, ?_⟩
    simp only [handle]
    split <;> rfl

end Actor

/-! ## The health scan -/

/-- The seconds without progress from which on a run counts as stuck. -/
def ActorCfg.stuckSecs (cfg : ActorCfg) : Nat := max cfg.abortMinSecs (3 * cfg.warnSecs)

/-- The actor, with what is true of its active run whatever the slot holds: when it last made
progress, and whether a compaction was handled under it. -/
structure Watch where
  actor : Actor
  lastProgress : Option Nat
  compacted : Bool

namespace Watch

def new (cfg : ActorCfg) (now : Nat) : Watch :=
  { actor := .new cfg now, lastProgress := none, compacted := false }

def progressAfter (last : Option Nat) : Cmd → Option Nat
  | .runProgress now => some now
  | _ => last

def compactedAfter (compacted : Bool) : Cmd → Bool
  | .compact _ => true
  | _ => compacted

/-- What a command adds to the record of the active run; a new run has a record of its own. -/
def next (w : Watch) (c : Cmd) (b : Actor) : Watch :=
  if b.active.map (·.runId) = w.actor.active.map (·.runId) then
    { actor := b, lastProgress := progressAfter w.lastProgress c, compacted := compactedAfter w.compacted c }
  else { actor := b, lastProgress := none, compacted := false }

def step (cfg : ActorCfg) (w : Watch) (c : Cmd) : Option Watch :=
  match Actor.step cfg w.actor c with
  | some b => some (w.next c b)
  | none => none

/-- Seconds since the active run's last progress, or since its start if it has made none. -/
def idleSecs (w : Watch) (r : ActiveRun) (now : Nat) : Nat :=
  (now - w.lastProgress.getD r.startedAt) / 1000

/-- A health scan that sets the token of a run finds it without progress for long enough. -/
def Justified (cfg : ActorCfg) (w : Watch) (c : Cmd) (t : Watch) : Prop :=
  ∀ now r, c = .healthScan now → w.actor.active = some r → r.cancelled = false →
    t.actor.active = some { r with cancelled := true } → cfg.stuckSecs ≤ w.idleSecs r now

/-- A health scan that meets a run which was compacted under and is old enough to be stopped, but
has made progress since. -/
def Misled (cfg : ActorCfg) (w : Watch) (c : Cmd) : Prop :=
  ∃ now r, c = .healthScan now ∧ w.actor.active = some r ∧ r.cancelled = false ∧
    w.compacted = true ∧ cfg.stuckSecs ≤ (now - r.startedAt) / 1000 ∧
    w.idleSecs r now < cfg.stuckSecs

/-- What the slot knows of the active run: its last progress, or, after a compaction, nothing. -/
def Reads (w : Watch) : Prop :=
  ∀ r, w.actor.active = some r →
    (w.compacted = true → w.actor.diag.active = none) ∧
      (w.compacted = false → ∃ live, w.actor.diag.active = some live ∧ live.lastDeltaAt = w.lastProgress)

open Actor (Bookkeeping)

theorem new_reads (cfg : ActorCfg) (now : Nat) : Reads (new cfg now) := by
  intro r hr
  simp [new, Actor.new] at hr

theorem step_eq_some {cfg : ActorCfg} {w t : Watch} {c : Cmd} (h : step cfg w c = some t) :
    ∃ b, Actor.step cfg w.actor c = some b ∧ t = w.next c b := by
  unfold step at h
  split at h
  · next b hb => exact ⟨b, hb, (Option.some.inj h).symm⟩
  · simp at h

@[simp] theorem next_actor (w : Watch) (c : Cmd) (b : Actor) : (w.next c b).actor = b := by
  unfold next
  split <;> rfl

/-- The run in the slot, read back: it is dated like the run's own record, or gone. -/
theorem reads_next {cfg : ActorCfg} {w : Watch} {c : Cmd} {b : Actor} (hb : Bookkeeping w.actor)
    (h : w.Reads) (hs : Actor.step cfg w.actor c = some b) : (w.next c b).Reads := by
  intro r hr
  rw [next_actor] at hr
  rcases Actor.slot_step hb hs with ⟨hid, hslot⟩ | ⟨hid, hbegun⟩
  · obtain ⟨r₀, hr₀, -⟩ : ∃ r₀, w.actor.active = some r₀ ∧ r₀.runId = r.runId := by
      rw [hr] at hid
      exact Option.map_eq_some_iff.1 hid.symm
    obtain ⟨hgone, hthere⟩ := h r₀ hr₀
    unfold next
    rw [if_pos hid]
    simp only [hslot]
    cases c with
    | runProgress now =>
      refine ⟨fun hc => ?_, fun hc => ?_⟩
      · simp [Actor.slotAfter, hgone hc]
      · obtain ⟨live, hlive, -⟩ := hthere hc
        exact ⟨{ live with lastDeltaAt := some now }, by simp [Actor.slotAfter, hlive], rfl⟩
    | compact start => exact ⟨fun _ => rfl, fun hc => absurd hc (by simp [compactedAfter])⟩
    | submit r text sink now => exact ⟨hgone, hthere⟩
    | abort r hard => exact ⟨hgone, hthere⟩
    | finished r o now => exact ⟨hgone, hthere⟩
    | resume r => exact ⟨hgone, hthere⟩
    | healthScan now => exact ⟨hgone, hthere⟩
    | evictIfIdle idleAfter now => exact ⟨hgone, hthere⟩
    | runCancels => exact ⟨hgone, hthere⟩
    | runTerminal => exact ⟨hgone, hthere⟩
  · unfold next
    rw [if_neg hid]
    exact ⟨fun hc => absurd hc (by simp), fun _ => hbegun r hr⟩

/-- The books of the actor and what its slot tells of the active run. -/
structure Ok (w : Watch) : Prop where
  books : Bookkeeping w.actor
  reads : w.Reads

theorem ok_step {cfg : ActorCfg} {w t : Watch} {c : Cmd} (h : w.Ok) (hs : step cfg w c = some t) : t.Ok := by
  obtain ⟨b, hb, rfl⟩ := step_eq_some hs
  refine ⟨?_, reads_next h.books h.reads hb⟩
  rw [next_actor]
  exact Actor.bookkeeping_step h.books hb

/-- A run is stuck when both bounds are reached.  The source lets the triple saturate at 64 bits, which
seconds counted from milliseconds never reach. -/
theorem diagnose_stuck_iff {idle warnSecs abortMinSecs : Nat} :
    diagnose idle warnSecs abortMinSecs = .stuck ↔ max abortMinSecs (3 * warnSecs) ≤ idle := by
  unfold diagnose
  split
  · simp only [reduceCtorEq, false_iff]
    omega
  · split
    · simp only [true_iff]
      omega
    · simp only [reduceCtorEq, false_iff]
      omega

/-- The health scan goes by what the slot says: the seconds since the run's last progress, or after a
compaction since its start. -/
theorem scan_idle {w : Watch} (h : w.Reads) {r : ActiveRun} (hr : w.actor.active = some r) (now : Nat) :
    (w.actor.diag.idleSecs now).getD ((now - r.startedAt) / 1000) =
      if w.compacted then (now - r.startedAt) / 1000 else w.idleSecs r now := by
  obtain ⟨hgone, hthere⟩ := h r hr
  unfold DiagState.idleSecs
  split
  · next hc =>
    rw [hgone hc]
    rfl
  · next hc =>
    obtain ⟨live, hlive, hdate⟩ := hthere (by simpa using hc)
    rw [hlive, Option.bind_some, hdate]
    unfold idleSecs
    cases w.lastProgress <;> rfl

/-- A health scan stops the active run exactly when what the slot says is long enough. -/
theorem scan_stops_iff {cfg : ActorCfg} {a : Actor} {r : ActiveRun} {now : Nat} (hr : a.active = some r)
    (hlive : r.cancelled = false) :
    (Actor.onHealthScan cfg a now).active = some { r with cancelled := true } ↔
      cfg.stuckSecs ≤ (a.diag.idleSecs now).getD ((now - r.startedAt) / 1000) := by
  rw [ActorCfg.stuckSecs, ← diagnose_stuck_iff]
  simp only [Actor.onHealthScan, hr]
  cases hdiag : diagnose ((a.diag.idleSecs now).getD ((now - r.startedAt) / 1000)) cfg.warnSecs
      cfg.abortMinSecs with
  | stuck => simp [Actor.cancelActive, hr]
  | longRunning =>
    simp only [reduceCtorEq, iff_false]
    intro h
    rw [hr, Option.some.injEq] at h
    rw [h] at hlive
    simp at hlive
  | healthy =>
    simp only [reduceCtorEq, iff_false]
    intro h
    rw [hr, Option.some.injEq] at h
    rw [h] at hlive
    simp at hlive

/-- A health scan stops a run without reason exactly if the run was compacted under, is old enough
and has made progress lately. -/
theorem justified_step_iff {cfg : ActorCfg} {w t : Watch} {c : Cmd} (h : w.Ok)
    (hs : step cfg w c = some t) : w.Justified cfg c t ↔ ¬ w.Misled cfg c := by
  obtain ⟨b, hb, rfl⟩ := step_eq_some hs
  obtain ⟨-, -, rfl⟩ := Actor.step_eq_some.1 hb
  constructor
  · rintro hjust ⟨now, r, rfl, hr, hlive, hcomp, hold, hrecent⟩
    have hstops : (Actor.onHealthScan cfg w.actor now).active = some { r with cancelled := true } := by
      rw [scan_stops_iff hr hlive, scan_idle h.reads hr, if_pos hcomp]
      exact hold
    have hidle := hjust now r rfl hr hlive (by rw [next_actor]; exact hstops)
    omega
  · rintro hmis now r rfl hr hlive hstops
    rw [next_actor] at hstops
    have hsaid := (scan_stops_iff hr hlive).1 hstops
    rw [scan_idle h.reads hr] at hsaid
    by_cases hcomp : w.compacted = true
    · rw [if_pos hcomp] at hsaid
      by_contra hidle
      exact hmis ⟨now, r, rfl, hr, hlive, hcomp, hsaid, Nat.lt_of_not_le hidle⟩
    · rw [if_neg hcomp] at hsaid
      exact hsaid

/-- Along any sequence of commands a health scan stops the active run only if that run has shown no
progress for the larger of `abort_min_secs` and three times `warn_secs`, exactly as long as no health
scan meets a run under which a compaction was handled, which began that long ago and has
made progress since. -/
theorem justified_iff (cfg : ActorCfg) (now : Nat) (cmds : List Cmd) :
    Steps.AllSteps (step cfg) (fun w c t => w.Justified cfg c t) (new cfg now) cmds ↔
      Steps.AllSteps (step cfg) (fun w c _ => ¬ w.Misled cfg c) (new cfg now) cmds := by
  have hinv : ∀ w c t, w.Ok → step cfg w c = some t → t.Ok := fun _ _ _ h hs => ok_step h hs
  have hstep : ∀ w c t, w.Ok → step cfg w c = some t → (w.Justified cfg c t ↔ ¬ w.Misled cfg c) :=
    fun _ _ _ h hs => justified_step_iff h hs
  exact Steps.allSteps_congr hinv hstep ⟨Actor.new_bookkeeping cfg now, new_reads cfg now⟩ cmds

/-- A run is compacted under at its start, goes on making progress and is stopped five minutes
later, one second after its last progress. -/
def compactedUnder : List Cmd :=
  [.submit "a" "x" (.conn 1) 0, .compact 1000, .runProgress 299000, .healthScan 300000]

theorem justified_fails_on_compact :
    ¬ Steps.AllSteps (step testCfg) (fun w c t => w.Justified testCfg c t) (new testCfg 0)
      compactedUnder := by
  intro h
  have hfacts : ∃ t u r, Steps.exec (step testCfg) (new testCfg 0) (compactedUnder.take 3) = some t ∧
      step testCfg t (.healthScan 300000) = some u ∧ t.actor.active = some r ∧ r.cancelled = false ∧
        u.actor.active = some { r with cancelled := true } ∧ t.idleSecs r 300000 < testCfg.stuckSecs :=
    ⟨_, _, _, rfl, rfl, rfl, rfl, rfl, by decide⟩
  obtain ⟨t, u, r, ht, hu, hr, hlive, hstops, hidle⟩ := hfacts
  have hjust := Steps.allSteps_iff.1 h (compactedUnder.take 3) (.healthScan 300000) [] t u rfl ht hu
  have hle := hjust 300000 r rfl hr hlive hstops
  omega

end Watch

end OhMyClaw
