import Mathlib.Data.List.Sort
import Mathlib.Data.List.Dedup
import OhMyClaw.Lib.RustStr

/-!
# Cron expressions

Five fields, `minute hour day-of-month month day-of-week`, read in a time zone.  The next time an
expression fires is searched minute by minute, for 366 days at most.

    next_fire(expr, after, tz) = nextFire Z expr after tz

`Z` is the time zone database: the offset from UTC of a zone, in seconds, at each time.  Dates are
those of the Gregorian calendar; the times of the server are far from the ends of its 9999 years.

    stepUp_ends         the values of a field with a step run out within 256 turns
    nextFire_eq_some    what is found is a later minute that matches
    nextFire_eq_none    nothing is found exactly if no minute of the 366 days matches
-/

namespace OhMyClaw

/-! ## The wall clock -/

/-- Month and day of the month; days are counted from 1970-01-01. -/
def monthDay (days : Int) : Int × Int :=
  -- The era has 400 years and starts on the first of March.
  let dayOfEra := (days + 719468) % 146097
  let yearOfEra := (dayOfEra - dayOfEra / 1460 + dayOfEra / 36524 - dayOfEra / 146096) / 365
  let dayOfYear := dayOfEra - (365 * yearOfEra + yearOfEra / 4 - yearOfEra / 100)
  let month := (5 * dayOfYear + 2) / 153
  (if month < 10 then month + 3 else month - 9, dayOfYear - (153 * month + 2) / 5 + 1)

example : monthDay 19781 = (2, 28) ∧ monthDay 19782 = (2, 29) ∧ monthDay 19783 = (3, 1) := by decide

theorem monthDay_bounds (days : Int) :
    (1 ≤ (monthDay days).1 ∧ (monthDay days).1 ≤ 12) ∧ 1 ≤ (monthDay days).2 ∧ (monthDay days).2 ≤ 31 := by
  unfold monthDay
  dsimp only
  omega

example : monthDay (-1) = (12, 31) ∧ monthDay 47540 = (2, 28) ∧ monthDay 47541 = (3, 1) := by decide

structure WallTime where
  month : UInt8
  day : UInt8
  /-- 0 is Sunday. -/
  weekday : UInt8
  hour : UInt8
  minute : UInt8
deriving DecidableEq, Repr

/-- What the clock on the wall shows when its seconds are counted from 1970-01-01. -/
def wallTime (secs : Int) : WallTime :=
  let days := secs / 86400
  { month := UInt8.ofInt (monthDay days).1, day := UInt8.ofInt (monthDay days).2
    weekday := UInt8.ofInt ((days + 4) % 7)
    hour := UInt8.ofInt (secs % 86400 / 3600), minute := UInt8.ofInt (secs % 3600 / 60) }

/-! ## Expressions -/

inductive CronParseError where
  | wrongFieldCount
  | badField (name : String)
  | badTimezone (tz : String)
deriving DecidableEq, Repr

def CronParseError.message : CronParseError → String
  | .wrongFieldCount => "cron 表达式必须是 5 个字段：分 时 日 月 周"
  | .badField name => "cron 字段非法：" ++ name
  | .badTimezone tz => "未知时区：" ++ tz ++ "（需 IANA 名，如 Asia/Shanghai）"

/-- The values each field allows. -/
structure Schedule where
  minutes : List UInt8
  hours : List UInt8
  doms : List UInt8
  months : List UInt8
  dows : List UInt8
  domStar : Bool
  dowStar : Bool
deriving DecidableEq, Repr

/-- The loop `while v <= hi { out.push(v); v += step }`; the sum wraps. -/
def stepUp (step hi : UInt8) : Nat → UInt8 → List UInt8
  | 0, _ => []
  | fuel + 1, v => if v ≤ hi then v :: stepUp step hi fuel (v + step) else []

/-- Every step leads past the middle of the eight bits sooner or later. -/
theorem exists_past_middle (step : UInt8) (hstep : step ≠ 0) (v : UInt8) :
    ∃ k < 256, 128 ≤ (v.toNat + k * step.toNat) % 256 := by
  by_cases hv : 128 ≤ v.toNat
  · exact ⟨0, by omega, by have hlt := v.toNat_lt; omega⟩
  · have hall : ∀ n < 256, n = 0 ∨ ∃ j < 8, 2 ^ j * n % 256 = 128 := by decide +kernel
    obtain hzero | ⟨j, hj, hmid⟩ := hall step.toNat step.toNat_lt
    · exact absurd (UInt8.toNat_inj.1 hzero) hstep
    · refine ⟨2 ^ j, ?_, by omega⟩
      exact Nat.lt_of_lt_of_le (Nat.pow_lt_pow_right (by omega) hj) (by omega)

theorem stepUp_of_past {step hi : UInt8} (n : Nat) {k fuel : Nat} {v : UInt8}
    (hpast : hi.toNat < (v.toNat + k * step.toNat) % 256) (hk : k < fuel) :
    stepUp step hi (fuel + n) v = stepUp step hi fuel v := by
  induction k generalizing v fuel with
  | zero =>
    obtain ⟨fuel, rfl⟩ := Nat.exists_eq_succ_of_ne_zero (Nat.ne_of_gt hk)
    have hv : ¬ v ≤ hi := by
      have hlt := v.toNat_lt
      rw [UInt8.le_iff_toNat_le]
      omega
    rw [Nat.succ_add]
    simp only [stepUp, if_neg hv]
  | succ k ih =>
    obtain ⟨fuel, rfl⟩ := Nat.exists_eq_succ_of_ne_zero (Nat.ne_of_gt (Nat.lt_of_le_of_lt (Nat.zero_le _) hk))
    have hpast' : hi.toNat < ((v + step).toNat + k * step.toNat) % 256 := by
      rw [UInt8.toNat_add, Nat.mod_add_mod]
      rw [Nat.succ_mul] at hpast
      rwa [show v.toNat + step.toNat + k * step.toNat = v.toNat + (k * step.toNat + step.toNat) by omega]
    rw [Nat.succ_add]
    simp only [stepUp]
    rw [ih hpast' (Nat.lt_of_succ_lt_succ hk)]

/-- More turns add nothing: the loop has ended. -/
theorem stepUp_ends {step hi : UInt8} (hstep : step ≠ 0) (hhi : hi < 128) (v : UInt8) (n : Nat) :
    stepUp step hi (256 + n) v = stepUp step hi 256 v := by
  obtain ⟨k, hk, hpast⟩ := exists_past_middle step hstep v
  have hlt : hi.toNat < 128 := UInt8.lt_iff_toNat_lt.1 hhi
  exact stepUp_of_past n (Nat.lt_of_lt_of_le hlt hpast) hk

def parsePart (part : List Char) (min max : UInt8) (name : String) : Except CronParseError (List UInt8) := do
  let (base, step) ←
    match RustStr.splitOnce '/' part with
    | some (b, s) =>
      match RustStr.parseU8 s with
      | some step => if step = 0 then throw (.badField name) else pure (b, step)
      | none => throw (.badField name)
    | none => pure (part, 1)
  let (lo, hi) ←
    if base = ['*'] then pure (min, max)
    else
      match RustStr.splitOnce '-' base with
      | some (a, b) =>
        match RustStr.parseU8 a, RustStr.parseU8 b with
        | some a, some b => pure (a, b)
        | _, _ => throw (.badField name)
      | none =>
        match RustStr.parseU8 base with
        | some v => pure (v, v)
        | none => throw (.badField name)
  if lo < min ∨ max < hi ∨ hi < lo then throw (.badField name)
  else pure (stepUp step hi 256 lo)

def parseField (field : List Char) (min max : UInt8) (name : String) : Except CronParseError (List UInt8) := do
  let parts ← (field.splitOn ',').mapM fun part => parsePart part min max name
  let out := parts.flatten
  if out = [] then throw (.badField name) else pure ((out.insertionSort (· ≤ ·)).dedup)

def parseCron (expr : String) : Except CronParseError Schedule :=
  match RustStr.splitWhitespace expr.toList with
  | [minute, hour, dom, month, dow] => do
    let minutes ← parseField minute 0 59 "minute"
    let hours ← parseField hour 0 23 "hour"
    let doms ← parseField dom 1 31 "day-of-month"
    let months ← parseField month 1 12 "month"
    let dows ← parseField dow 0 6 "day-of-week"
    pure { minutes, hours, doms, months, dows, domStar := dom = ['*'], dowStar := dow = ['*'] }
  | _ => throw .wrongFieldCount

/-- If both day fields are restricted one of them is enough. -/
def dayMatches (s : Schedule) (t : WallTime) : Bool :=
  let dom := s.doms.contains t.day
  let dow := s.dows.contains t.weekday
  match s.domStar, s.dowStar with
  | true, true => true
  | true, false => dow
  | false, true => dom
  | false, false => dom || dow

def Schedule.matches (s : Schedule) (t : WallTime) : Bool :=
  s.minutes.contains t.minute && s.hours.contains t.hour && s.months.contains t.month && dayMatches s t

/-- The expression of tasks that fire once, at a time of their own. -/
def onceExpr : String := "@once"

def isOnce (expr : String) : Bool := RustStr.trim expr.toList = onceExpr.toList

/-! ## The next time -/

abbrev Zones := String → Option (Int → Int)

/-- No name is UTC as well. -/
def resolveTz (Z : Zones) (tz : String) : Except CronParseError (Int → Int) :=
  let name := RustStr.trim tz.toList
  if name = [] ∨ name.map Char.toLower = "utc".toList then
    match Z "UTC" with
    | some offset => pure offset
    | none => throw (.badTimezone "UTC")
  else
    match Z (String.ofList name) with
    | some offset => pure offset
    | none => throw (.badTimezone (String.ofList name))

/-- The loop over the minutes from `t` to the limit. -/
def searchMinute (p : Int → Bool) (limit : Int) : Nat → Int → Option Int
  | 0, _ => none
  | fuel + 1, t => if limit < t then none else if p t then some t else searchMinute p limit fuel (t + 60)

/-- How far ahead is searched, in seconds. -/
def cronHorizon : Int := 366 * 86400

def nextFire (Z : Zones) (expr : String) (after : Int) (tz : String) : Except CronParseError (Option Int) := do
  let sched ← parseCron expr
  let offset ← resolveTz Z tz
  pure (searchMinute (fun t => sched.matches (wallTime (t + offset t))) (after + cronHorizon) (366 * 1440)
    (after - after % 60 + 60))

theorem searchMinute_eq_some {p : Int → Bool} {limit : Int} {fuel : Nat} {t u : Int}
    (h : searchMinute p limit fuel t = some u) : ∃ k : Nat, u = t + 60 * k ∧ u ≤ limit ∧ p u = true := by
  induction fuel generalizing t with
  | zero => simp [searchMinute] at h
  | succ fuel ih =>
    unfold searchMinute at h
    split at h
    · simp at h
    · next hlimit =>
      split at h
      · next hp =>
        obtain rfl := Option.some.inj h
        exact ⟨0, by omega, by omega, hp⟩
      · obtain ⟨k, rfl, hle, hp⟩ := ih h
        exact ⟨k + 1, by omega, hle, hp⟩

/-- With fuel for every minute up to the limit. -/
theorem searchMinute_eq_none {p : Int → Bool} {limit : Int} {fuel : Nat} {t : Int} (hfuel : limit < t + 60 * fuel) :
    searchMinute p limit fuel t = none ↔ ∀ k : Nat, t + 60 * k ≤ limit → p (t + 60 * k) = false := by
  induction fuel generalizing t with
  | zero =>
    simp only [searchMinute, true_iff]
    intro k hk
    omega
  | succ fuel ih =>
    unfold searchMinute
    split
    · next hlimit =>
      simp only [true_iff]
      intro k hk
      omega
    · next hlimit =>
      split
      · next hp =>
        simp only [reduceCtorEq, false_iff]
        intro h
        have hnot := h 0 (by omega)
        simp [hp] at hnot
      · next hp =>
        rw [ih (by push_cast at hfuel; omega)]
        constructor
        · intro h k hk
          cases k with
          | zero => simpa using hp
          | succ k =>
            have hnext : t + 60 * ((k + 1 : Nat) : Int) = t + 60 + 60 * (k : Int) := by omega
            rw [hnext] at hk ⊢
            exact h k hk
        · intro h k hk
          have hnext : t + 60 + 60 * (k : Int) = t + 60 * ((k + 1 : Nat) : Int) := by omega
          rw [hnext] at hk ⊢
          exact h (k + 1) hk

/-- The expression matches what a clock in its time zone shows. -/
def CronMatches (Z : Zones) (expr tz : String) (t : Int) : Prop :=
  ∃ sched offset, parseCron expr = .ok sched ∧ resolveTz Z tz = .ok offset ∧
    sched.matches (wallTime (t + offset t)) = true

section NextFire

variable {Z : Zones} {expr tz : String} {after : Int}

/-- What is found is a minute behind `after` that matches. -/
theorem nextFire_eq_some {t : Int} (h : nextFire Z expr after tz = .ok (some t)) :
    after < t ∧ t ≤ after + cronHorizon ∧ t % 60 = 0 ∧ CronMatches Z expr tz t := by
  unfold nextFire at h
  cases hsched : parseCron expr with
  | error e => simp [hsched, bind, Except.bind] at h
  | ok sched =>
    cases hoffset : resolveTz Z tz with
    | error e => simp [hsched, hoffset, bind, Except.bind] at h
    | ok offset =>
      simp only [hsched, hoffset, bind, Except.bind, pure, Except.pure, Except.ok.injEq] at h
      obtain ⟨k, rfl, hle, hp⟩ := searchMinute_eq_some h
      refine ⟨by omega, hle, by omega, sched, offset, hsched, hoffset, hp⟩

/-- The minutes `after` leaves within 366 days. -/
def NoneWithin (Z : Zones) (expr tz : String) (after : Int) : Prop :=
  ∀ t, after < t → t ≤ after + cronHorizon → t % 60 = 0 → ¬ CronMatches Z expr tz t

/-- The search looks at every minute of the 366 days; it fails as well if the expression or the zone cannot be
read, and then nothing matches. -/
theorem nextFire_eq_none :
    (nextFire Z expr after tz).toOption.join = none ↔ NoneWithin Z expr tz after := by
  unfold nextFire NoneWithin CronMatches
  cases hsched : parseCron expr with
  | error e => simp [bind, Except.bind, Except.toOption]
  | ok sched =>
    cases hoffset : resolveTz Z tz with
    | error e => simp [bind, Except.bind, Except.toOption]
    | ok offset =>
      simp only [bind, Except.bind, pure, Except.pure, Except.toOption, Option.join_some]
      rw [searchMinute_eq_none (by unfold cronHorizon; omega)]
      constructor
      · rintro h t hlt hle hmin ⟨sched', offset', hs, ho, hp⟩
        obtain rfl := Except.ok.inj hs
        obtain rfl := Except.ok.inj ho
        obtain ⟨k, hk⟩ : ∃ k : Nat, t = after - after % 60 + 60 + 60 * k :=
          ⟨((t - (after - after % 60 + 60)) / 60).toNat, by omega⟩
        have hnot := h k (by omega)
        rw [← hk, hp] at hnot
        simp at hnot
      · intro h k hk
        have hnot := h (after - after % 60 + 60 + 60 * k) (by omega) hk (by omega)
        by_contra hp
        exact hnot ⟨sched, offset, rfl, rfl, by simpa using hp⟩

theorem nextFire_of_join {t : Int} (h : (nextFire Z expr after tz).toOption.join = some t) :
    nextFire Z expr after tz = .ok (some t) := by
  cases hnext : nextFire Z expr after tz with
  | error e => simp [hnext, Except.toOption] at h
  | ok nextAt =>
    rw [hnext] at h
    exact congrArg Except.ok h

theorem not_matches_of_error {e : CronParseError} (h : nextFire Z expr after tz = .error e) (t : Int) :
    ¬ CronMatches Z expr tz t := by
  rintro ⟨sched, offset, hsched, hoffset, -⟩
  unfold nextFire at h
  simp [hsched, hoffset, bind, Except.bind, pure, Except.pure] at h

end NextFire

end OhMyClaw
