import OhMyClaw.Server.Cron

/-!
# The next time of a recurring task

A recurring task without a next time never fires again.  The search for it ends after 366 days, and
29 February may be further away: the tool refuses such a task, but the method of the protocol stores
it, and a scan that has fired a task stores whatever the search gives.

    scheduled_iff               no task is left without a next time while an instant to come matches it,
                                exactly if every search whose result is stored finds a minute unless
                                nothing matches any more
    scheduled_fails_leap_day    29 February, added in January 2025
-/

namespace OhMyClaw

namespace CronWorld

variable (cfg : CronCfg)

/-- No recurring task waits for nothing while an instant to come matches it. -/
def Scheduled (w : CronWorld) : Prop :=
  ∀ r ∈ w.db.crons, isOnce r.expr = false → r.nextAt = none →
    ∀ t, w.now < t → ¬ CronMatches cfg.zones r.expr r.tz t

/-- A minute of the 366 days behind the clock matches, or nothing matches any more. -/
def Reaches (w : CronWorld) (expr tz : String) (clock : Int) : Prop :=
  NoneWithin cfg.zones expr tz clock → ∀ t, w.now < t → ¬ CronMatches cfg.zones expr tz t

/-- The searches whose results are stored: that of a recurring task the method adds, and that of a scan that
has fired a task which is still there. -/
def Finds (w : CronWorld) : Act → Prop
  | .add p clock _ => isOnce p.expr = false → Reaches cfg w p.expr p.tz clock
  | .scan _ => ∀ sc ∈ w.scan, ∀ j ∈ sc.job, j.phase = .mark → w.db.Has j.row.id →
      Reaches cfg w j.row.expr j.row.tz j.now
  | _ => True

variable {cfg} {w w' : CronWorld} {a : Act}

/-- A step that stores no search keeps the rows it leaves as they are. -/
theorem scheduled_of_subset (hP : Scheduled cfg w) {db : CronDb} (hdb : ∀ r ∈ db.crons, r ∈ w.db.crons)
    (hw : w'.db = db) (hnow : w.now ≤ w'.now) : Scheduled cfg w' := by
  intro r hr hrecurs hnone t ht
  rw [hw] at hr
  exact hP r (hdb r hr) hrecurs hnone t (Int.lt_of_le_of_lt hnow ht)

/-- A task that the method adds. -/
theorem scheduled_insert (hP : Scheduled cfg w) {c : NewCron} {clock : Int} {db : CronDb}
    (hdb : w.db.cronAdd c = some db) (hnext : nextFire cfg.zones c.expr clock c.tz = .ok c.nextAt) (hw : w'.db = db)
    (hnow : w'.now = w.now) :
    Scheduled cfg w' ↔ (isOnce c.expr = false → Reaches cfg w c.expr c.tz clock) := by
  have hnone : c.nextAt = none ↔ NoneWithin cfg.zones c.expr c.tz clock := by
    rw [← nextFire_eq_none, hnext]
    rfl
  constructor
  · intro h hrecurs hwithin t ht
    have hin : CronDb.newRow c ∈ w'.db.crons := by
      rw [hw, CronDb.crons_cronAdd hdb]
      exact List.mem_append_right _ (List.mem_singleton.2 rfl)
    exact h _ hin hrecurs (hnone.2 hwithin) t (hnow ▸ ht)
  · intro h r hr hrecurs hrnone t ht
    rw [hw, CronDb.crons_cronAdd hdb, List.mem_append, List.mem_singleton] at hr
    rw [hnow] at ht
    rcases hr with hr | rfl
    · exact hP r hr hrecurs hrnone t ht
    · exact h hrecurs (hnone.1 hrnone) t ht

/-- A task that has a next time from the first is none that waits for nothing. -/
theorem scheduled_insert_next (hP : Scheduled cfg w) {c : NewCron} {db : CronDb} (hdb : w.db.cronAdd c = some db)
    (hnext : c.nextAt ≠ none) (hw : w'.db = db) (hnow : w'.now = w.now) : Scheduled cfg w' := by
  intro r hr hrecurs hnone t ht
  rw [hw, CronDb.crons_cronAdd hdb, List.mem_append, List.mem_singleton] at hr
  rcases hr with hr | rfl
  · exact hP r hr hrecurs hnone t (hnow ▸ ht)
  · exact absurd hnone hnext

/-- A job stores a search when it reschedules its task. -/
theorem scheduled_job (hs : Sound w) (hP : Scheduled cfg w) {j : CronJob} (hok : j.Ok w.added) (answer : String)
    (hw : w'.db = (j.advance cfg.zones answer w.now w.db).1) (hnow : w'.now = w.now) :
    Scheduled cfg w' ↔
      (j.phase = .mark → w.db.Has j.row.id → Reaches cfg w j.row.expr j.row.tz j.now) := by
  constructor
  · rintro h hmark ⟨r, hr, hid⟩ hwithin t ht
    obtain ⟨hexpr, htz⟩ := hs.sameTask (hs.rows r hr) hok.known hid
    have hin : CronDb.fireRow j.row.id j.now (nextFire cfg.zones j.row.expr j.now j.row.tz).toOption.join r ∈
        w'.db.crons := by
      rw [hw]
      simp only [CronJob.advance, hmark]
      exact CronDb.mem_cronMarkFired.2 ⟨r, hr, rfl⟩
    unfold CronDb.fireRow at hin
    rw [if_pos hid] at hin
    have hrecurs : isOnce r.expr = false := by
      rw [hexpr]
      exact hok.marks hmark
    have hno := h _ hin hrecurs (nextFire_eq_none.2 hwithin) t (hnow ▸ ht)
    rw [← hexpr, ← htz]
    exact hno
  · intro h r' hr' hrecurs hnone t ht
    rw [hw] at hr'
    rw [hnow] at ht
    obtain ⟨r, hr, rfl | ⟨hmark, hid, rfl⟩⟩ := CronJob.mem_advance hr'
    · exact hP _ hr hrecurs hnone t ht
    · obtain ⟨hexpr, htz⟩ := hs.sameTask (hs.rows r hr) hok.known hid
      show ¬ CronMatches cfg.zones r.expr r.tz t
      rw [hexpr, htz]
      exact h hmark ⟨r, hr, hid⟩ (nextFire_eq_none.1 hnone) t ht

theorem scheduled_step_iff (hs : Sound w) (hP : Scheduled cfg w) (hm : Moves cfg w a w') :
    Scheduled cfg w' ↔ Finds cfg w a := by
  have hsame : ∀ {v : CronWorld}, v.db = w.db → w.now ≤ v.now → Scheduled cfg v := fun hdb hnow =>
    scheduled_of_subset hP (fun _ hr => hr) hdb hnow
  cases hm with
  | tick hnow => exact iff_of_true (hsame rfl hnow) trivial
  | refuse herror =>
    exact iff_of_true hP fun _ _ t _ => not_matches_of_error herror t
  | refuseTool | refuseDelay => exact iff_of_true hP trivial
  | insert hadds hfresh hdb =>
    cases hadds with
    | method hclock hnext => exact Iff.trans (scheduled_insert hP hdb hnext rfl rfl) Iff.rfl
    | tool hclock hnext => exact iff_of_true (scheduled_insert_next hP hdb (by simp) rfl rfl) trivial
    | delay => exact iff_of_true (scheduled_insert_next hP hdb (by simp) rfl rfl) trivial
  | @remove a id acks ha hacks =>
    refine iff_of_true (scheduled_of_subset hP (fun r hr => (CronDb.mem_cronRm.1 hr).1) rfl (Int.le_refl _)) ?_
    rcases ha with rfl | rfl <;> trivial
  | ack hid => exact iff_of_true (hsame rfl (Int.le_refl _)) trivial
  | beat hclock hscan => exact iff_of_true (hsame rfl (Int.le_refl _)) trivial
  | @scanJob sc j answer hscan hjob =>
    refine Iff.trans (scheduled_job hs hP (hs.job sc hscan j hjob) answer rfl rfl) ?_
    simp [Finds, hscan, hjob]
  | scanNext hscan hjob hdue =>
    exact iff_of_true (hsame rfl (Int.le_refl _)) (by simp [Finds, hscan, hjob])
  | scanEnd hscan hjob hdue =>
    exact iff_of_true (hsame rfl (Int.le_refl _)) (by simp [Finds, hscan, hjob])
  | @timerJob id answer j htimer =>
    -- The task of a timer fires once, so it is not rescheduled.
    have hok := (hs.timerJob id j htimer).2
    have honce := hs.once_of_timer htimer
    exact iff_of_true (Iff.mpr (scheduled_job hs hP hok answer rfl rfl) fun hmark => absurd hmark (hok.not_mark honce))
      trivial
  | timerWake | timerEnd | restart => exact iff_of_true (hsame rfl (Int.le_refl _)) trivial

/-- Whatever is added, removed and fired and whenever the server restarts: no recurring task is left without a
next time while an instant to come matches it, exactly if the searches whose results are stored find a minute
unless nothing matches any more. -/
theorem scheduled_iff (cfg : CronCfg) (now : Int) (as : List Act) :
    Steps.AllStates (step cfg) (Scheduled cfg) (init now) as ↔
      Steps.AllSteps (step cfg) (fun w a _ => Finds cfg w a) (init now) as := by
  have hinit : Scheduled cfg (init now) := by
    intro r hr
    simp [init, CronDb.empty] at hr
  exact Steps.allStates_iff_allSteps (fun _ _ _ hs h => sound_step hs (moves_of_step h))
    (fun _ _ _ hs hP h => scheduled_step_iff hs hP (moves_of_step h)) (sound_init now) hinit as

/-! ## 29 February -/

def leapDay : CronAddParams := { expr := "0 0 29 2 *", prompt := "leap", tz := "UTC" }

theorem parse_leapDay : parseCron leapDay.expr =
    .ok { minutes := [0], hours := [0], doms := [29], months := [2], dows := [0, 1, 2, 3, 4, 5, 6],
          domStar := false, dowStar := true } := by
  decide

/-- A small number is what its byte says. -/
theorem eq_of_ofInt {x : Int} {b : UInt8} (hle : 0 ≤ x) (hlt : x < 256) (h : UInt8.ofInt x = b) : x = b.toNat := by
  subst h
  unfold UInt8.ofInt
  rw [Int.emod_eq_of_lt hle (by omega), UInt8.toNat_ofNat_of_lt' (by simp; omega), Int.toNat_of_nonneg hle]

/-- The days of 2025 are counted from 20089 on. -/
theorem monthDay_leapDay : ∀ k < 367, monthDay (20089 + (k : Nat)) ≠ (2, 29) := by decide +kernel

/-- The first 29 February behind January 2025 is in 2028. -/
theorem noneWithin_leapDay : NoneWithin testCron.zones leapDay.expr leapDay.tz 1735689600 := by
  rintro t hlt hle hmin ⟨sched, offset, hsched, hoffset, hmatch⟩
  obtain rfl := Except.ok.inj (parse_leapDay.symm.trans hsched)
  obtain rfl := Except.ok.inj ((rfl : resolveTz testCron.zones leapDay.tz = .ok fun _ => 0).symm.trans hoffset)
  simp only [Schedule.matches, dayMatches, Bool.and_eq_true, List.contains_iff_mem, List.mem_singleton] at hmatch
  obtain ⟨⟨-, hmonth⟩, hday⟩ := hmatch
  unfold cronHorizon at hle
  obtain ⟨k, hk, hday'⟩ : ∃ k : Nat, k < 367 ∧ (t + 0) / 86400 = 20089 + k :=
    ⟨((t + 0) / 86400 - 20089).toNat, by omega, by omega⟩
  obtain ⟨⟨hlow, hhigh⟩, hlow', hhigh'⟩ := monthDay_bounds ((t + 0) / 86400)
  refine monthDay_leapDay k hk (hday' ▸ Prod.ext ?_ ?_)
  · exact eq_of_ofInt (by omega) (by omega) hmonth
  · exact eq_of_ofInt (by omega) (by omega) hday

theorem nextFire_leapDay : nextFire testCron.zones leapDay.expr 1735689600 leapDay.tz = .ok none := by
  have hnone := nextFire_eq_none.2 noneWithin_leapDay
  obtain ⟨nextAt, hnext⟩ : ∃ nextAt, nextFire testCron.zones leapDay.expr 1735689600 leapDay.tz = .ok nextAt := by
    unfold nextFire
    rw [parse_leapDay]
    exact ⟨_, rfl⟩
  rw [hnext] at hnone ⊢
  exact congrArg Except.ok hnone

/-- Stored by the method in January 2025, it waits for nothing, and 29 February 2028 goes by. -/
theorem scheduled_fails_leap_day :
    ¬ ∀ (cfg : CronCfg) (now : Int) (as : List Act),
      Steps.AllStates (step cfg) (Scheduled cfg) (init now) as := by
  intro h
  have hstep : step testCron (init 1735689600) (.add leapDay 1735689600 "c") =
      (init 1735689600).insert { id := "c", expr := leapDay.expr, prompt := leapDay.prompt, tz := leapDay.tz,
                                 nextAt := none } := by
    simp only [step, handleCronAdd, nextFire_leapDay]
    rw [if_neg (by decide)]
  obtain ⟨w, hw⟩ : ∃ w, step testCron (init 1735689600) (.add leapDay 1735689600 "c") = some w := by
    rw [hstep]
    exact ⟨_, rfl⟩
  have hrun : Steps.exec (step testCron) (init 1735689600) [.add leapDay 1735689600 "c"] = some w :=
    Steps.exec_cons_eq_some.2 ⟨w, hw, rfl⟩
  have hscheduled := Steps.allStates_iff.1 (h testCron 1735689600 _) _ w (List.prefix_refl _) hrun
  obtain rfl := Option.some.inj (hw.symm.trans hstep)
  refine hscheduled _ (List.mem_singleton.2 rfl) (by decide) rfl 1835395200 (by decide) ?_
  exact ⟨_, _, parse_leapDay, rfl, by decide⟩

end CronWorld

end OhMyClaw
