import OhMyClaw.Core.Cron

/-!
# The fields of a cron expression

A field is a comma list of parts, and a part is a base with or without a step: `*`, a number or a
range.  `PartMeans` is this grammar; the values of a part are those of its range that the step
reaches from its start.

The loop over these values adds the step in eight bits, also behind the last value.  `none` is the
run that ends there: the sum is checked in a debug build.  A release build wraps instead and goes on
with `stepUp`.

    readPart_iff      the parser reads the grammar
    fieldRight_iff    when a field is read as it should be
-/

namespace OhMyClaw

namespace CronField

/-- The base and the step of a part. -/
def readStep (part : List Char) (name : String) : Except CronParseError (List Char × UInt8) :=
  match RustStr.splitOnce '/' part with
  | some (b, s) =>
    match RustStr.parseU8 s with
    | some step => if step = 0 then .error (.badField name) else .ok (b, step)
    | none => .error (.badField name)
  | none => .ok (part, 1)

/-- The range of a base. -/
def readBase (base : List Char) (min max : UInt8) (name : String) : Except CronParseError (UInt8 × UInt8) :=
  if base = ['*'] then .ok (min, max)
  else
    match RustStr.splitOnce '-' base with
    | some (a, b) =>
      match RustStr.parseU8 a, RustStr.parseU8 b with
      | some a, some b => .ok (a, b)
      | _, _ => .error (.badField name)
    | none =>
      match RustStr.parseU8 base with
      | some v => .ok (v, v)
      | none => .error (.badField name)

/-- What a part is read as before its values are listed: start, end and step. -/
def readPart (part : List Char) (min max : UInt8) (name : String) :
    Except CronParseError (UInt8 × UInt8 × UInt8) := do
  let (base, step) ← readStep part name
  let (lo, hi) ← readBase base min max name
  if lo < min ∨ max < hi ∨ hi < lo then throw (.badField name) else pure (lo, hi, step)

theorem readBase_bind {α : Type} (base : List Char) (min max : UInt8) (name : String)
    (k : UInt8 × UInt8 → Except CronParseError α) :
    (if base = ['*'] then k (min, max)
      else
        match RustStr.splitOnce '-' base with
        | some (a, b) =>
          match RustStr.parseU8 a, RustStr.parseU8 b with
          | some a, some b => k (a, b)
          | _, _ => .error (.badField name)
        | none =>
          match RustStr.parseU8 base with
          | some v => k (v, v)
          | none => .error (.badField name)) =
      (readBase base min max name).bind k := by
  unfold readBase
  by_cases hstar : base = ['*']
  · simp only [if_pos hstar]
    rfl
  · simp only [if_neg hstar]
    cases RustStr.splitOnce '-' base with
    | some p => cases ha : RustStr.parseU8 p.1 <;> cases hb : RustStr.parseU8 p.2 <;> simp only [ha, hb] <;> rfl
    | none => cases hv : RustStr.parseU8 base <;> rfl

/-- A part is read, and its values are the loop's. -/
theorem parsePart_eq (part : List Char) (min max : UInt8) (name : String) :
    parsePart part min max name =
      (readPart part min max name).map fun r => stepUp r.2.2 r.2.1 256 r.1 := by
  let values (step : UInt8) (r : UInt8 × UInt8) : Except CronParseError (List UInt8) :=
    if r.1 < min ∨ max < r.2 ∨ r.2 < r.1 then .error (.badField name) else .ok (stepUp step r.2 256 r.1)
  have hpart : parsePart part min max name =
      (readStep part name).bind fun s => (readBase s.1 min max name).bind (values s.2) := by
    unfold parsePart readStep
    cases RustStr.splitOnce '/' part with
    | none => exact readBase_bind part min max name (values 1)
    | some p =>
      cases hs : RustStr.parseU8 p.2 with
      | none =>
        simp only [hs]
        rfl
      | some step =>
        by_cases hstep : step = 0
        · simp only [hs, if_pos hstep]
          rfl
        · simp only [hs, if_neg hstep]
          exact readBase_bind p.1 min max name (values step)
  rw [hpart]
  unfold readPart
  cases readStep part name with
  | error e => rfl
  | ok s =>
    cases hbase : readBase s.1 min max name with
    | error e => simp [hbase, bind, Except.bind, Except.map]
    | ok r =>
      simp only [bind, Except.bind, hbase, values]
      split <;> rfl

/-- The loop with the sum checked. -/
def stepUpChecked (step hi : UInt8) : Nat → UInt8 → Option (List UInt8)
  | 0, _ => none
  | fuel + 1, v =>
    if v ≤ hi then
      if v.toNat + step.toNat < 256 then (stepUpChecked step hi fuel (v + step)).map (v :: ·) else none
    else some []

/-- The values of the parts, in the order of the parts; the first that is refused ends the reading. -/
def partsChecked (min max : UInt8) (name : String) :
    List (List Char) → Option (Except CronParseError (List UInt8))
  | [] => some (.ok [])
  | part :: parts =>
    match readPart part min max name with
    | .error e => some (.error e)
    | .ok (lo, hi, step) =>
      (stepUpChecked step hi 256 lo).bind fun values =>
        (partsChecked min max name parts).map (·.map (values ++ ·))

/-- `parse_field` with its sums checked; `none` where one overflows. -/
def parseFieldChecked (field : List Char) (min max : UInt8) (name : String) :
    Option (Except CronParseError (List UInt8)) :=
  (partsChecked min max name (field.splitOn ',')).map fun r => do
    let out ← r
    if out = [] then throw (.badField name) else pure ((out.insertionSort (· ≤ ·)).dedup)

/-! ## The grammar -/

/-- The range a base stands for. -/
inductive BaseMeans (min max : UInt8) : List Char → UInt8 → UInt8 → Prop where
  | star : BaseMeans min max ['*'] min max
  | value {s : List Char} {n : UInt8} (h : RustStr.parseU8 s = some n) : BaseMeans min max s n n
  | range {a b : List Char} {lo hi : UInt8} (ha : RustStr.parseU8 a = some lo)
      (hb : RustStr.parseU8 b = some hi) : BaseMeans min max (a ++ '-' :: b) lo hi

/-- The start, the end and the step a part stands for; a part without a step has step one. -/
inductive PartMeans (min max : UInt8) : List Char → UInt8 → UInt8 → UInt8 → Prop where
  | base {b : List Char} {lo hi : UInt8} (h : BaseMeans min max b lo hi) (hmin : min ≤ lo) (hmax : hi ≤ max)
      (hle : lo ≤ hi) : PartMeans min max b lo hi 1
  | step {b s : List Char} {lo hi step : UInt8} (h : BaseMeans min max b lo hi) (hmin : min ≤ lo)
      (hmax : hi ≤ max) (hle : lo ≤ hi) (hs : RustStr.parseU8 s = some step) (hstep : step ≠ 0) :
      PartMeans min max (b ++ '/' :: s) lo hi step

/-- The field is a comma list of the parts. -/
def FieldOf (min max : UInt8) (field : List Char) (parts : List (List Char)) : Prop :=
  parts ≠ [] ∧ field = [','].intercalate parts ∧ ∀ part ∈ parts, ∃ lo hi step, PartMeans min max part lo hi step

/-- A value of a part: in its range, and a number of steps behind its start. -/
def Denotes (min max : UInt8) (parts : List (List Char)) (v : UInt8) : Prop :=
  ∃ part ∈ parts, ∃ lo hi step, PartMeans min max part lo hi step ∧ lo ≤ v ∧ v ≤ hi ∧
    v.toNat % step.toNat = lo.toNat % step.toNat

/-! ## Reading the grammar -/

variable {min max lo hi step : UInt8} {name : String} {part base : List Char}

theorem not_mem_of_parseU8 {s : List Char} {n : UInt8} (h : RustStr.parseU8 s = some n) {c : Char}
    (hc : c.isDigit = false ∧ c ≠ '+') : c ∉ s := by
  intro hmem
  rcases (RustStr.parseU8_digits h).2 c hmem with hdigit | hplus
  · rw [hc.1] at hdigit
    cases hdigit
  · exact hc.2 hplus

/-- What separates parts, bases and steps is in no base. -/
theorem not_mem_of_base (h : BaseMeans min max base lo hi) {c : Char} (hc : c = '/' ∨ c = ',') : c ∉ base := by
  have hplain : c.isDigit = false ∧ c ≠ '+' ∧ c ≠ '-' ∧ c ≠ '*' := by rcases hc with rfl | rfl <;> decide
  cases h with
  | star => simpa using hplain.2.2.2
  | value h => exact not_mem_of_parseU8 h ⟨hplain.1, hplain.2.1⟩
  | range ha hb =>
    intro hmem
    rcases List.mem_append.1 hmem with hmem | hmem
    · exact not_mem_of_parseU8 ha ⟨hplain.1, hplain.2.1⟩ hmem
    · rcases List.mem_cons.1 hmem with hmem | hmem
      · exact hplain.2.2.1 hmem
      · exact not_mem_of_parseU8 hb ⟨hplain.1, hplain.2.1⟩ hmem

theorem comma_not_mem_of_part (h : PartMeans min max part lo hi step) : ',' ∉ part := by
  cases h with
  | base h => exact not_mem_of_base h (Or.inr rfl)
  | step h _ _ _ hs =>
    intro hmem
    rcases List.mem_append.1 hmem with hmem | hmem
    · exact not_mem_of_base h (Or.inr rfl) hmem
    · rcases List.mem_cons.1 hmem with hmem | hmem
      · exact absurd hmem (by decide)
      · exact not_mem_of_parseU8 hs (by decide) hmem

theorem readBase_iff : readBase base min max name = .ok (lo, hi) ↔ BaseMeans min max base lo hi := by
  constructor
  · intro h
    unfold readBase at h
    split at h
    · next hstar =>
      obtain ⟨rfl, rfl⟩ := Prod.mk.inj (Except.ok.inj h)
      exact hstar ▸ .star
    · split at h
      · next a b hsplit =>
        split at h
        · next ha hb =>
          obtain ⟨rfl, rfl⟩ := Prod.mk.inj (Except.ok.inj h)
          rw [(RustStr.splitOnce_eq_some.1 hsplit).1]
          exact .range ha hb
        · cases h
      · split at h
        · next hv =>
          obtain ⟨rfl, rfl⟩ := Prod.mk.inj (Except.ok.inj h)
          exact .value hv
        · cases h
  · intro h
    unfold readBase
    cases h with
    | star => rw [if_pos rfl]
    | value h =>
      have hstar : base ≠ ['*'] := by
        rintro rfl
        exact not_mem_of_parseU8 h (by decide) (List.mem_singleton.2 rfl)
      rw [if_neg hstar, RustStr.splitOnce_eq_none.2 (not_mem_of_parseU8 h (by decide))]
      simp only [h]
    | @range a b _ _ ha hb =>
      have hstar : a ++ '-' :: b ≠ ['*'] := by
        intro hab
        have : '-' ∈ a ++ '-' :: b := by simp
        rw [hab] at this
        exact absurd this (by decide)
      rw [if_neg hstar, RustStr.splitOnce_eq_some.2 ⟨rfl, not_mem_of_parseU8 ha (by decide)⟩]
      simp only [ha, hb]

theorem readStep_iff : readStep part name = .ok (base, step) ↔
    ('/' ∉ part ∧ base = part ∧ step = 1) ∨
      ∃ s, part = base ++ '/' :: s ∧ '/' ∉ base ∧ RustStr.parseU8 s = some step ∧ step ≠ 0 := by
  constructor
  · intro h
    unfold readStep at h
    split at h
    · next b s hsplit =>
      obtain ⟨hpart, hslash⟩ := RustStr.splitOnce_eq_some.1 hsplit
      split at h
      · next hs =>
        split at h
        · cases h
        · next hstep =>
          obtain ⟨rfl, rfl⟩ := Prod.mk.inj (Except.ok.inj h)
          exact Or.inr ⟨s, hpart, hslash, hs, hstep⟩
      · cases h
    · next hsplit =>
      obtain ⟨rfl, rfl⟩ := Prod.mk.inj (Except.ok.inj h)
      exact Or.inl ⟨RustStr.splitOnce_eq_none.1 hsplit, rfl, rfl⟩
  · rintro (⟨hslash, rfl, rfl⟩ | ⟨s, rfl, hslash, hs, hstep⟩)
    · unfold readStep
      rw [RustStr.splitOnce_eq_none.2 hslash]
    · unfold readStep
      rw [RustStr.splitOnce_eq_some.2 ⟨rfl, hslash⟩]
      simp only [hs, if_neg hstep]

theorem readPart_eq_ok : readPart part min max name = .ok (lo, hi, step) ↔
    ∃ base, readStep part name = .ok (base, step) ∧ readBase base min max name = .ok (lo, hi) ∧
      min ≤ lo ∧ hi ≤ max ∧ lo ≤ hi := by
  unfold readPart
  cases hstep : readStep part name with
  | error e => simp [bind, Except.bind]
  | ok s =>
    cases hbase : readBase s.1 min max name with
    | error e =>
      simp only [bind, Except.bind, hbase, reduceCtorEq, false_iff]
      rintro ⟨base, hs, hb, -⟩
      rw [Except.ok.inj hs, hb] at hbase
      cases hbase
    | ok r =>
      obtain ⟨base, step'⟩ := s
      obtain ⟨lo', hi'⟩ := r
      simp only [bind, Except.bind, hbase]
      constructor
      · intro h
        split at h
        · cases h
        · next hbounds =>
          obtain ⟨rfl, rfl, rfl⟩ : lo' = lo ∧ hi' = hi ∧ step' = step := by
            simpa [pure, Except.pure] using h
          rw [not_or, not_or, UInt8.not_lt, UInt8.not_lt, UInt8.not_lt] at hbounds
          exact ⟨base, rfl, hbase, hbounds⟩
      · rintro ⟨base', hs, hb, hbounds⟩
        obtain ⟨rfl, rfl⟩ := Prod.mk.inj (Except.ok.inj hs)
        obtain ⟨rfl, rfl⟩ := Prod.mk.inj (Except.ok.inj (hbase.symm.trans hb))
        rw [if_neg]
        · rfl
        · rw [not_or, not_or, UInt8.not_lt, UInt8.not_lt, UInt8.not_lt]
          exact hbounds

theorem readPart_iff : readPart part min max name = .ok (lo, hi, step) ↔ PartMeans min max part lo hi step := by
  rw [readPart_eq_ok]
  constructor
  · rintro ⟨base, hstep, hbase, hmin, hmax, hle⟩
    have hbase := readBase_iff.1 hbase
    rcases readStep_iff.1 hstep with ⟨-, rfl, rfl⟩ | ⟨s, rfl, -, hs, hne⟩
    · exact .base hbase hmin hmax hle
    · exact .step hbase hmin hmax hle hs hne
  · intro h
    cases h with
    | base hbase hmin hmax hle =>
      exact ⟨part, readStep_iff.2 (Or.inl ⟨not_mem_of_base hbase (Or.inl rfl), rfl, rfl⟩),
        readBase_iff.2 hbase, hmin, hmax, hle⟩
    | @step b s _ _ _ hbase hmin hmax hle hs hne =>
      exact ⟨b, readStep_iff.2 (Or.inr ⟨s, rfl, not_mem_of_base hbase (Or.inl rfl), hs, hne⟩),
        readBase_iff.2 hbase, hmin, hmax, hle⟩

/-! ## The loop -/

/-- How many values the loop lists. -/
def turns (lo hi step : UInt8) : Nat := (hi.toNat - lo.toNat) / step.toNat + 1

/-- The sum behind the last value fits in eight bits. -/
def Fits (lo hi step : UInt8) : Prop := lo.toNat + turns lo hi step * step.toNat < 256

theorem turns_next (hstep : step ≠ 0) {v v' : UInt8} (hv' : v'.toNat = v.toNat + step.toNat) (hle : v' ≤ hi) :
    turns v hi step = turns v' hi step + 1 := by
  have hpos : 0 < step.toNat := Nat.pos_of_ne_zero fun h => hstep (UInt8.toNat_inj.1 h)
  have hle := UInt8.le_iff_toNat_le.1 hle
  unfold turns
  rw [Nat.div_eq_sub_div hpos (by omega), hv', Nat.sub_sub]

theorem turns_last {v : UInt8} (hlt : hi.toNat < v.toNat + step.toNat) (hle : v ≤ hi) : turns v hi step = 1 := by
  have hle := UInt8.le_iff_toNat_le.1 hle
  unfold turns
  rw [Nat.div_eq_of_lt (by omega)]

/-- A value the step reaches is the start or behind the next one. -/
theorem reached_next {v v' x : UInt8} (hv' : v'.toNat = v.toNat + step.toNat) :
    v ≤ x ∧ x.toNat % step.toNat = v.toNat % step.toNat ↔
      x = v ∨ (v' ≤ x ∧ x.toNat % step.toNat = v'.toNat % step.toNat) := by
  rw [UInt8.le_iff_toNat_le, UInt8.le_iff_toNat_le, hv', Nat.add_mod_right]
  constructor
  · rintro ⟨hle, hmod⟩
    by_cases hx : x = v
    · exact Or.inl hx
    · have hlt : v.toNat < x.toNat := Nat.lt_of_le_of_ne hle fun h => hx (UInt8.toNat_inj.1 h).symm
      have hdvd : step.toNat ∣ x.toNat - v.toNat := Nat.dvd_of_mod_eq_zero (Nat.sub_mod_eq_zero_of_mod_eq hmod)
      have := Nat.le_of_dvd (by omega) hdvd
      exact Or.inr ⟨by omega, hmod⟩
  · rintro (rfl | ⟨hle, hmod⟩)
    · exact ⟨le_rfl, rfl⟩
    · exact ⟨by omega, hmod⟩

/-- The values from `v` on are `v` and those from the next one on. -/
theorem mem_cons_reached {v : UInt8} {values : List UInt8} (hv : v ≤ hi)
    (hv' : (v + step).toNat = v.toNat + step.toNat)
    (hmem : ∀ x, x ∈ values ↔ v + step ≤ x ∧ x ≤ hi ∧ x.toNat % step.toNat = (v + step).toNat % step.toNat)
    (x : UInt8) : x ∈ v :: values ↔ v ≤ x ∧ x ≤ hi ∧ x.toNat % step.toNat = v.toNat % step.toNat := by
  constructor
  · intro hx
    rcases List.mem_cons.1 hx with rfl | hx
    · exact ⟨UInt8.le_refl _, hv, rfl⟩
    · obtain ⟨hle, hxhi, hmod⟩ := (hmem x).1 hx
      obtain ⟨hvx, hmod⟩ := (reached_next hv').2 (Or.inr ⟨hle, hmod⟩)
      exact ⟨hvx, hxhi, hmod⟩
  · rintro ⟨hvx, hxhi, hmod⟩
    rcases (reached_next hv').1 ⟨hvx, hmod⟩ with rfl | ⟨hle, hmod⟩
    · exact List.mem_cons_self
    · exact List.mem_cons_of_mem _ ((hmem x).2 ⟨hle, hxhi, hmod⟩)

/-- Where no sum overflows the loop is the wrapping one. -/
theorem stepUp_of_checked {fuel : Nat} {v : UInt8} {values : List UInt8}
    (h : stepUpChecked step hi fuel v = some values) : stepUp step hi fuel v = values := by
  induction fuel generalizing v values with
  | zero => cases h
  | succ fuel ih =>
    rw [stepUpChecked] at h
    rw [stepUp]
    split at h
    · next hv =>
      rw [if_pos hv]
      split at h
      · obtain ⟨rest, hrest, rfl⟩ := Option.map_eq_some_iff.1 h
        rw [ih hrest]
      · cases h
    · next hv =>
      rw [if_neg hv]
      exact Option.some.inj h

/-- The loop lists the values the step reaches. -/
theorem stepUpChecked_of_fits (hstep : step ≠ 0) {fuel : Nat} {v : UInt8} (hv : v ≤ hi) (hfits : Fits v hi step)
    (hfuel : turns v hi step < fuel) :
    ∃ values, stepUpChecked step hi fuel v = some values ∧ values ≠ [] ∧
      ∀ x, x ∈ values ↔ v ≤ x ∧ x ≤ hi ∧ x.toNat % step.toNat = v.toNat % step.toNat := by
  induction fuel generalizing v with
  | zero => omega
  | succ fuel ih =>
    have hturns : 1 ≤ turns v hi step := Nat.le_add_left _ _
    have hsum : v.toNat + step.toNat < 256 := by
      have := Nat.mul_le_mul_right step.toNat hturns
      unfold Fits at hfits
      omega
    have hv' : (v + step).toNat = v.toNat + step.toNat := by
      rw [UInt8.toNat_add]
      exact Nat.mod_eq_of_lt hsum
    rw [stepUpChecked, if_pos hv, if_pos hsum]
    by_cases hnext : v + step ≤ hi
    · have hone := turns_next hstep hv' hnext
      have hfits' : Fits (v + step) hi step := by
        unfold Fits at hfits ⊢
        rw [hone, Nat.succ_mul] at hfits
        omega
      obtain ⟨values, hchecked, -, hmem⟩ := ih hnext hfits' (by omega)
      exact ⟨v :: values, by rw [hchecked]; rfl, List.cons_ne_nil _ _, mem_cons_reached hv hv' hmem⟩
    · obtain ⟨fuel, rfl⟩ : ∃ n, fuel = n + 1 := ⟨fuel - 1, by omega⟩
      -- `v` is the last value: nothing is reached from the next one on.
      refine ⟨[v], by rw [stepUpChecked, if_neg hnext]; rfl, by simp, mem_cons_reached hv hv' fun x => ?_⟩
      apply iff_of_false List.not_mem_nil
      rintro ⟨hle, hxhi, -⟩
      exact hnext (UInt8.le_trans hle hxhi)

/-- Otherwise one of its sums overflows. -/
theorem stepUpChecked_of_not_fits (hstep : step ≠ 0) (fuel : Nat) {v : UInt8} (hv : v ≤ hi)
    (hfits : ¬ Fits v hi step) : stepUpChecked step hi fuel v = none := by
  induction fuel generalizing v with
  | zero => rfl
  | succ fuel ih =>
    rw [stepUpChecked, if_pos hv]
    split
    · next hsum =>
      have hv' : (v + step).toNat = v.toNat + step.toNat := by
        rw [UInt8.toNat_add]
        exact Nat.mod_eq_of_lt hsum
      have hnext : v + step ≤ hi := by
        by_contra hnext
        rw [UInt8.le_iff_toNat_le] at hnext
        unfold Fits at hfits
        rw [turns_last (by omega) hv] at hfits
        omega
      have hfits' : ¬ Fits (v + step) hi step := by
        unfold Fits at hfits ⊢
        rw [turns_next hstep hv' hnext, Nat.succ_mul] at hfits
        omega
      rw [ih hnext hfits']
      rfl
    · rfl

/-! ## Reading a field -/

/-- Every part that is read, up to the first that is refused, fits. -/
def PartsFit (min max : UInt8) (parts : List (List Char)) : Prop :=
  ∀ pre part post, parts = pre ++ part :: post →
    (∀ p ∈ pre, ∃ lo hi step, PartMeans min max p lo hi step) →
      ∀ lo hi step, PartMeans min max part lo hi step → Fits lo hi step

/-- What reading the parts comes to. -/
structure Values (min max : UInt8) (parts : List (List Char)) (out : List UInt8) : Prop where
  read : ∀ part ∈ parts, ∃ lo hi step, PartMeans min max part lo hi step
  nonempty : parts ≠ [] → out ≠ []
  mem : ∀ v, v ∈ out ↔ Denotes min max parts v

theorem PartMeans.le (h : PartMeans min max part lo hi step) : lo ≤ hi := by
  cases h <;> assumption

theorem PartMeans.step_ne_zero (h : PartMeans min max part lo hi step) : step ≠ 0 := by
  cases h with
  | base => decide
  | step => assumption

/-- A part means one thing. -/
theorem PartMeans.unique (h : PartMeans min max part lo hi step) {lo' hi' step' : UInt8}
    (h' : PartMeans min max part lo' hi' step') : lo' = lo ∧ hi' = hi ∧ step' = step := by
  have hread : readPart part min max "" = .ok (lo, hi, step) := readPart_iff.2 h
  rw [readPart_iff.2 h'] at hread
  simpa using hread

theorem partsFit_cons {parts : List (List Char)} : PartsFit min max (part :: parts) ↔
    ∀ lo hi step, PartMeans min max part lo hi step → Fits lo hi step ∧ PartsFit min max parts := by
  constructor
  · intro h lo hi step hpart
    refine ⟨h [] part parts rfl (by simp) lo hi step hpart, fun pre p post hsplit hpre => ?_⟩
    refine h (part :: pre) p post (by rw [hsplit]; rfl) fun q hq => ?_
    rcases List.mem_cons.1 hq with rfl | hq
    · exact ⟨lo, hi, step, hpart⟩
    · exact hpre q hq
  · intro h pre p post hsplit hpre
    cases pre with
    | nil =>
      obtain ⟨rfl, rfl⟩ := List.cons.inj hsplit
      exact fun lo hi step hpart => (h lo hi step hpart).1
    | cons q pre =>
      obtain ⟨rfl, rfl⟩ := List.cons.inj hsplit
      obtain ⟨lo, hi, step, hpart⟩ := hpre part List.mem_cons_self
      exact (h lo hi step hpart).2 pre p post rfl fun r hr => hpre r (List.mem_cons_of_mem _ hr)

theorem values_cons {parts : List (List Char)} {values out : List UInt8} (hpart : PartMeans min max part lo hi step)
    (hvalues : values ≠ [])
    (hmem : ∀ x, x ∈ values ↔ lo ≤ x ∧ x ≤ hi ∧ x.toNat % step.toNat = lo.toNat % step.toNat)
    (h : Values min max parts out) : Values min max (part :: parts) (values ++ out) where
  read := by
    intro p hp
    rcases List.mem_cons.1 hp with rfl | hp
    · exact ⟨lo, hi, step, hpart⟩
    · exact h.read p hp
  nonempty := by
    intro _ hnil
    exact hvalues (List.append_eq_nil_iff.1 hnil).1
  mem := by
    intro v
    rw [List.mem_append, hmem, h.mem]
    constructor
    · rintro (hv | ⟨p, hp, hv⟩)
      · exact ⟨part, List.mem_cons_self, lo, hi, step, hpart, hv⟩
      · exact ⟨p, List.mem_cons_of_mem _ hp, hv⟩
    · rintro ⟨p, hp, lo', hi', step', hp', hv⟩
      rcases List.mem_cons.1 hp with rfl | hp
      · obtain ⟨rfl, rfl, rfl⟩ := hpart.unique hp'
        exact Or.inl hv
      · exact Or.inr ⟨p, hp, lo', hi', step', hp', hv⟩

/-- Parts that fit are read without overflow: to their values, or to the refusal of one of them. -/
theorem partsChecked_of_fit (name : String) {parts : List (List Char)} (h : PartsFit min max parts) :
    (∃ out, partsChecked min max name parts = some (.ok out) ∧ Values min max parts out) ∨
      ((∃ e, partsChecked min max name parts = some (.error e)) ∧
        ∃ part ∈ parts, ¬ ∃ lo hi step, PartMeans min max part lo hi step) := by
  induction parts with
  | nil => exact Or.inl ⟨[], rfl, by simp, by simp, by simp [Denotes]⟩
  | cons part parts ih =>
    cases hread : readPart part min max name with
    | error e =>
      refine Or.inr ⟨⟨e, by simp only [partsChecked, hread]⟩, part, List.mem_cons_self, ?_⟩
      rintro ⟨lo, hi, step, hpart⟩
      rw [readPart_iff.2 hpart] at hread
      cases hread
    | ok r =>
      obtain ⟨lo, hi, step⟩ := r
      have hpart := readPart_iff.1 hread
      obtain ⟨hfits, hrest⟩ := partsFit_cons.1 h lo hi step hpart
      have hturns : turns lo hi step < 256 := by
        have := Nat.le_mul_of_pos_right (turns lo hi step)
          (Nat.pos_of_ne_zero fun h => hpart.step_ne_zero (UInt8.toNat_inj.1 h))
        unfold Fits at hfits
        omega
      obtain ⟨values, hvalues, hne, hmem⟩ :=
        stepUpChecked_of_fits hpart.step_ne_zero hpart.le hfits hturns
      rcases ih hrest with ⟨out, hout, hspec⟩ | ⟨⟨e, he⟩, p, hp, hbad⟩
      · refine Or.inl ⟨values ++ out, ?_, values_cons hpart hne hmem hspec⟩
        simp only [partsChecked, hread, hvalues, hout, Option.bind_some, Option.map_some, Except.map]
      · refine Or.inr ⟨⟨e, ?_⟩, p, List.mem_cons_of_mem _ hp, hbad⟩
        simp only [partsChecked, hread, hvalues, he, Option.bind_some, Option.map_some, Except.map]

theorem partsChecked_of_not_fit {parts : List (List Char)} (h : ¬ PartsFit min max parts) :
    partsChecked min max name parts = none := by
  induction parts with
  | nil =>
    refine absurd (fun pre part post hsplit => ?_) h
    simp at hsplit
  | cons part parts ih =>
    by_contra hsome
    refine h (partsFit_cons.2 fun lo hi step hpart => ?_)
    have hread : readPart part min max name = .ok (lo, hi, step) := readPart_iff.2 hpart
    simp only [partsChecked, hread] at hsome
    constructor
    · by_contra hfits
      rw [stepUpChecked_of_not_fits hpart.step_ne_zero 256 hpart.le hfits] at hsome
      exact hsome rfl
    · by_contra hrest
      rw [ih hrest] at hsome
      exact hsome (by cases stepUpChecked step hi 256 lo <;> rfl)

/-- Parts that are read without overflow are read as the wrapping loop reads them. -/
theorem mapM_of_partsChecked {parts : List (List Char)} {r : Except CronParseError (List UInt8)}
    (h : partsChecked min max name parts = some r) :
    (parts.mapM fun part => parsePart part min max name).map List.flatten = r := by
  induction parts generalizing r with
  | nil =>
    obtain rfl := Option.some.inj h
    rfl
  | cons part parts ih =>
    rw [List.mapM_cons, parsePart_eq]
    rw [partsChecked] at h
    cases hread : readPart part min max name with
    | error e =>
      rw [hread] at h
      obtain rfl := Option.some.inj h
      rfl
    | ok q =>
      obtain ⟨lo, hi, step⟩ := q
      rw [hread] at h
      obtain ⟨values, hvalues, hrest⟩ := Option.bind_eq_some_iff.1 h
      obtain ⟨r', hr', rfl⟩ := Option.map_eq_some_iff.1 hrest
      rw [← ih hr']
      simp only [Except.map, stepUp_of_checked hvalues]
      cases parts.mapM fun part => parsePart part min max name <;> rfl

theorem parseField_of_checked {field : List Char} {r : Except CronParseError (List UInt8)}
    (h : parseFieldChecked field min max name = some r) : parseField field min max name = r := by
  obtain ⟨q, hq, rfl⟩ := Option.map_eq_some_iff.1 h
  rw [← mapM_of_partsChecked hq]
  unfold parseField
  cases (field.splitOn ',').mapM fun part => parsePart part min max name <;> rfl

/-- The parts of a field are those between its commas. -/
theorem fieldOf_iff {field : List Char} {parts : List (List Char)} :
    FieldOf min max field parts ↔
      parts = field.splitOn ',' ∧ ∀ part ∈ field.splitOn ',', ∃ lo hi step, PartMeans min max part lo hi step := by
  constructor
  · rintro ⟨hne, rfl, hparts⟩
    have hcomma : ∀ part ∈ parts, ',' ∉ part := by
      intro part hpart
      obtain ⟨lo, hi, step, hmeans⟩ := hparts part hpart
      exact comma_not_mem_of_part hmeans
    rw [List.splitOn_intercalate ',' hcomma hne]
    exact ⟨rfl, hparts⟩
  · rintro ⟨rfl, hparts⟩
    exact ⟨List.splitOn_ne_nil ',' field, (List.intercalate_splitOn ',').symm, hparts⟩

/-- Sorted, and every value once. -/
theorem sorted_dedup (out : List UInt8) : ((out.insertionSort (· ≤ ·)).dedup).Pairwise (· < ·) := by
  have hle := (List.pairwise_insertionSort (· ≤ ·) out).sublist (List.dedup_sublist _)
  refine (hle.and (List.nodup_dedup _)).imp fun {a b} h => ?_
  rw [UInt8.lt_iff_toNat_lt]
  exact Nat.lt_of_le_of_ne (UInt8.le_iff_toNat_le.1 h.1) fun hsame => h.2 (UInt8.toNat_inj.1 hsame)

/-- The field is read without overflow; it is accepted when it is a comma list of the grammar, and then
what comes out are its values in order. -/
def FieldRight (field : List Char) (min max : UInt8) (name : String) : Prop :=
  ∃ r, parseFieldChecked field min max name = some r ∧
    ((∃ out, r = .ok out) ↔ ∃ parts, FieldOf min max field parts) ∧
    ∀ out, r = .ok out → out.Pairwise (· < ·) ∧
      ∀ parts, FieldOf min max field parts → ∀ v, v ∈ out ↔ Denotes min max parts v

theorem fieldRight_of_fit {field : List Char} (name : String) (hfits : PartsFit min max (field.splitOn ',')) :
    FieldRight field min max name := by
  rcases partsChecked_of_fit name hfits with ⟨out, hout, hvalues⟩ | ⟨⟨e, he⟩, part, hpart, hbad⟩
  · have hne := hvalues.nonempty (List.splitOn_ne_nil ',' field)
    have hfield : FieldOf min max field (field.splitOn ',') := fieldOf_iff.2 ⟨rfl, hvalues.read⟩
    refine ⟨.ok ((out.insertionSort (· ≤ ·)).dedup), ?_, iff_of_true ⟨_, rfl⟩ ⟨_, hfield⟩, ?_⟩
    · rw [parseFieldChecked, hout]
      show some (if out = [] then _ else _) = _
      rw [if_neg hne]
      rfl
    · intro out' hout'
      obtain rfl := Except.ok.inj hout'
      refine ⟨sorted_dedup out, fun parts hparts v => ?_⟩
      rw [(fieldOf_iff.1 hparts).1, List.mem_dedup, List.mem_insertionSort, hvalues.mem]
  · refine ⟨.error e, ?_, iff_of_false (fun ⟨out, hout⟩ => by cases hout) ?_, fun out hout => by cases hout⟩
    · rw [parseFieldChecked, he]
      rfl
    · rintro ⟨parts, hparts⟩
      exact hbad ((fieldOf_iff.1 hparts).2 part hpart)

/-- A field is read as it should be exactly when the sum behind the last value of every part that is
read fits in eight bits. -/
theorem fieldRight_iff (field : List Char) (min max : UInt8) (name : String) :
    FieldRight field min max name ↔ PartsFit min max (field.splitOn ',') := by
  constructor
  · rintro ⟨r, hr, -⟩
    by_contra hfits
    rw [parseFieldChecked, partsChecked_of_not_fit hfits] at hr
    cases hr
  · exact fieldRight_of_fit name

/-- A field that is read is a comma list of the grammar, and fits. -/
theorem of_parseFieldChecked {field : List Char} {out : List UInt8}
    (h : parseFieldChecked field min max name = some (.ok out)) :
    (∃ parts, FieldOf min max field parts) ∧ PartsFit min max (field.splitOn ',') := by
  have hfits : PartsFit min max (field.splitOn ',') := by
    by_contra hfits
    rw [parseFieldChecked, partsChecked_of_not_fit hfits] at h
    cases h
  obtain ⟨r, hr, haccepted, -⟩ := fieldRight_of_fit name hfits
  obtain rfl := Option.some.inj (h.symm.trans hr)
  exact ⟨haccepted.1 ⟨out, rfl⟩, hfits⟩

theorem overflowing_means : PartMeans 0 59 "59/255".toList 59 59 255 :=
  .step (.value (s := "59".toList) (by decide)) (by decide) (by decide) (by decide) (s := "255".toList) (by decide)
    (by decide)

theorem fieldOf_overflowing : FieldOf 0 59 "59/255".toList ["59/255".toList] := by
  refine ⟨by simp, by simp, fun part hpart => ?_⟩
  rw [List.mem_singleton.1 hpart]
  exact ⟨59, 59, 255, overflowing_means⟩

/-- Behind minute 59 a step of 255 leads out of the eight bits: the run ends there, or goes on from
58 and lists every minute. -/
theorem fieldRight_overflows :
    ¬ FieldRight "59/255".toList 0 59 "minute" ∧
      parseField "59/255".toList 0 59 "minute" = .ok ((List.range 60).map UInt8.ofNat) ∧
      (∃ parts, FieldOf 0 59 "59/255".toList parts) := by
  refine ⟨?_, by rfl, _, fieldOf_overflowing⟩
  rintro ⟨r, hr, -⟩
  have hnone : parseFieldChecked "59/255".toList 0 59 "minute" = none := by rfl
  rw [hnone] at hr
  cases hr

end CronField

end OhMyClaw
