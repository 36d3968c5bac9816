import OhMyClaw.Core.CronField

/-!
# The times of a cron expression

`nextFireChecked` is the search for the next time with everything that can end the program in it:
the sums of the parser, the sums of the search and the projection to the time zone, each of which
has to stay within the range of the calendar.

    matches_iff            what the schedule that is read matches
    nextFireChecked_eq     within the range the search ends and is `nextFire`
    nextFireRight_iff      when the next times are the minutes the expression means
-/

namespace OhMyClaw

namespace CronTimes

open CronField

/-- A run that may be refused, and may end the program: `none`. -/
abbrev Run := ExceptT CronParseError Option

/-- The times of the years from -9999 to 9999. -/
def minTimestamp : Int := -377705116800

def maxTimestamp : Int := 253402300799

def InRange (t : Int) : Prop := minTimestamp ≤ t ∧ t ≤ maxTimestamp

instance (t : Int) : Decidable (InRange t) := inferInstanceAs (Decidable (minTimestamp ≤ t ∧ t ≤ maxTimestamp))

/-- A sum of a time and a duration. -/
def plus (t d : Int) : Option Int := if InRange (t + d) then some (t + d) else none

def parseChecked (expr : String) : Run Schedule :=
  match RustStr.splitWhitespace expr.toList with
  | [minute, hour, dom, month, dow] => do
    let minutes ← ExceptT.mk (parseFieldChecked minute 0 59 "minute")
    let hours ← ExceptT.mk (parseFieldChecked hour 0 23 "hour")
    let doms ← ExceptT.mk (parseFieldChecked dom 1 31 "day-of-month")
    let months ← ExceptT.mk (parseFieldChecked month 1 12 "month")
    let dows ← ExceptT.mk (parseFieldChecked dow 0 6 "day-of-week")
    pure { minutes, hours, doms, months, dows, domStar := dom = ['*'], dowStar := dow = ['*'] }
  | _ => throw .wrongFieldCount

/-- The loop over the minutes; `hit` projects a minute to the time zone and compares. -/
def searchChecked (hit : Int → Option Bool) (limit : Int) : Nat → Int → Option (Option Int)
  | 0, _ => none
  | fuel + 1, t =>
    if limit < t then some none
    else do
      if ← hit t then some (some t)
      else searchChecked hit limit fuel (← plus t 60)

def nextFireChecked (Z : Zones) (expr : String) (after : Int) (tz : String) : Run (Option Int) := do
  let sched ← parseChecked expr
  let offset ← ExceptT.mk (some (resolveTz Z tz))
  if ¬ InRange after then throw (.badField "after")
  let t ← ExceptT.lift (plus (after - after % 60) 60)
  let limit ← ExceptT.lift (plus after cronHorizon)
  let hit t := (plus t (offset t)).map fun wall => sched.matches (wallTime wall)
  ExceptT.lift (searchChecked hit limit (366 * 1440 + 1) t)

/-! ## What an expression means -/

/-- Five fields, each a comma list of the grammar. -/
def Accepted (expr : String) : Prop :=
  ∃ minute hour dom month dow, RustStr.splitWhitespace expr.toList = [minute, hour, dom, month, dow] ∧
    (∃ parts, FieldOf 0 59 minute parts) ∧ (∃ parts, FieldOf 0 23 hour parts) ∧
    (∃ parts, FieldOf 1 31 dom parts) ∧ (∃ parts, FieldOf 1 12 month parts) ∧ ∃ parts, FieldOf 0 6 dow parts

/-- If both day fields are restricted either may match, otherwise the restricted one has to. -/
def DayRule (dom dow : List Char) (day weekday : UInt8) : Prop :=
  if dom ≠ ['*'] ∧ dow ≠ ['*'] then Denotes 1 31 (dom.splitOn ',') day ∨ Denotes 0 6 (dow.splitOn ',') weekday
  else (dom ≠ ['*'] → Denotes 1 31 (dom.splitOn ',') day) ∧ (dow ≠ ['*'] → Denotes 0 6 (dow.splitOn ',') weekday)

/-- What the clock shows is meant by the expression. -/
def Meant (expr : String) (t : WallTime) : Prop :=
  ∃ minute hour dom month dow, RustStr.splitWhitespace expr.toList = [minute, hour, dom, month, dow] ∧
    Denotes 0 59 (minute.splitOn ',') t.minute ∧ Denotes 0 23 (hour.splitOn ',') t.hour ∧
    Denotes 1 12 (month.splitOn ',') t.month ∧ DayRule dom dow t.day t.weekday

/-- Every part of the five fields fits. -/
def FieldsFit (expr : String) : Prop :=
  ∀ minute hour dom month dow, RustStr.splitWhitespace expr.toList = [minute, hour, dom, month, dow] →
    PartsFit 0 59 (minute.splitOn ',') ∧ PartsFit 0 23 (hour.splitOn ',') ∧ PartsFit 1 31 (dom.splitOn ',') ∧
      PartsFit 1 12 (month.splitOn ',') ∧ PartsFit 0 6 (dow.splitOn ',')

/-! ## Reading an expression -/

variable {min max : UInt8} {name : String} {field : List Char} {expr : String}

/-- A field of the grammar that fits is read to its values. -/
theorem parseFieldChecked_of_fit (name : String) (h : ∃ parts, FieldOf min max field parts)
    (hfits : PartsFit min max (field.splitOn ',')) :
    ∃ out, parseFieldChecked field min max name = some (.ok out) ∧
      ∀ v, v ∈ out ↔ Denotes min max (field.splitOn ',') v := by
  obtain ⟨r, hr, haccepted, hvalues⟩ := fieldRight_of_fit name hfits
  obtain ⟨out, rfl⟩ := haccepted.2 h
  obtain ⟨parts, hparts⟩ := h
  obtain ⟨rfl, -⟩ := fieldOf_iff.1 hparts
  exact ⟨out, hr, (hvalues out rfl).2 _ hparts⟩

theorem parseFieldChecked_of_not_fit (hfits : ¬ PartsFit min max (field.splitOn ',')) :
    parseFieldChecked field min max name = none := by
  rw [parseFieldChecked, partsChecked_of_not_fit hfits]
  rfl

theorem bind_eq_some {α β : Type} {x : Option (Except CronParseError α)} {k : α → Run β}
    {r : Except CronParseError β} (h : (ExceptT.mk x >>= k : Run β) = some r) :
    (∃ e, x = some (.error e) ∧ r = .error e) ∨ ∃ a, x = some (.ok a) ∧ k a = some r := by
  cases x with
  | none => cases h
  | some q =>
    cases q with
    | error e => exact Or.inl ⟨e, rfl, (Option.some.inj h).symm⟩
    | ok a => exact Or.inr ⟨a, rfl, h⟩

theorem bind_eq_ok {α β : Type} {x : Option (Except CronParseError α)} {k : α → Run β} {b : β}
    (h : (ExceptT.mk x >>= k : Run β) = some (.ok b)) : ∃ a, x = some (.ok a) ∧ k a = some (.ok b) := by
  rcases bind_eq_some h with ⟨e, -, hr⟩ | hok
  · cases hr
  · exact hok

/-- A field of the grammar that is read fits, and the reading goes on with its values. -/
theorem fit_of_bind {β : Type} {k : List UInt8 → Run β} {r : Except CronParseError β}
    (hfield : ∃ parts, FieldOf min max field parts)
    (h : (ExceptT.mk (parseFieldChecked field min max name) >>= k : Run β) = some r) :
    PartsFit min max (field.splitOn ',') ∧ ∃ out, k out = some r := by
  have hfits : PartsFit min max (field.splitOn ',') := by
    by_contra hfits
    rw [parseFieldChecked_of_not_fit hfits] at h
    cases h
  obtain ⟨out, hout, -⟩ := parseFieldChecked_of_fit name hfield hfits
  rw [hout] at h
  exact ⟨hfits, out, h⟩

theorem parseChecked_fits (haccepted : Accepted expr) {r : Except CronParseError Schedule}
    (h : parseChecked expr = some r) : FieldsFit expr := by
  obtain ⟨minute, hour, dom, month, dow, hwords, hminute, hhour, hdom, hmonth, hdow⟩ := haccepted
  rw [parseChecked, hwords] at h
  obtain ⟨fminute, minutes, h⟩ := fit_of_bind hminute h
  obtain ⟨fhour, hours, h⟩ := fit_of_bind hhour h
  obtain ⟨fdom, doms, h⟩ := fit_of_bind hdom h
  obtain ⟨fmonth, months, h⟩ := fit_of_bind hmonth h
  obtain ⟨fdow, -, -⟩ := fit_of_bind hdow h
  intro minute' hour' dom' month' dow' hwords'
  obtain ⟨rfl, rfl, rfl, rfl, rfl⟩ : minute = minute' ∧ hour = hour' ∧ dom = dom' ∧ month = month' ∧ dow = dow' := by
    simpa using hwords.symm.trans hwords'
  exact ⟨fminute, fhour, fdom, fmonth, fdow⟩

theorem accepted_of_parseChecked {sched : Schedule} (h : parseChecked expr = some (.ok sched)) :
    Accepted expr ∧ FieldsFit expr := by
  have haccepted : Accepted expr := by
    unfold parseChecked at h
    split at h
    · next minute hour dom month dow hwords =>
      obtain ⟨minutes, hminute, h⟩ := bind_eq_ok h
      obtain ⟨hours, hhour, h⟩ := bind_eq_ok h
      obtain ⟨doms, hdom, h⟩ := bind_eq_ok h
      obtain ⟨months, hmonth, h⟩ := bind_eq_ok h
      obtain ⟨dows, hdow, h⟩ := bind_eq_ok h
      exact ⟨minute, hour, dom, month, dow, hwords, (of_parseFieldChecked hminute).1, (of_parseFieldChecked hhour).1,
        (of_parseFieldChecked hdom).1, (of_parseFieldChecked hmonth).1, (of_parseFieldChecked hdow).1⟩
    · cases h
  exact ⟨haccepted, parseChecked_fits haccepted h⟩

/-- What the schedule matches is what the expression means. -/
theorem parseChecked_of_fits (haccepted : Accepted expr) (hfits : FieldsFit expr) :
    ∃ sched, parseChecked expr = some (.ok sched) ∧ ∀ t, sched.matches t = true ↔ Meant expr t := by
  obtain ⟨minute, hour, dom, month, dow, hwords, hminute, hhour, hdom, hmonth, hdow⟩ := haccepted
  obtain ⟨fminute, fhour, fdom, fmonth, fdow⟩ := hfits minute hour dom month dow hwords
  obtain ⟨minutes, rminute, mminute⟩ := parseFieldChecked_of_fit "minute" hminute fminute
  obtain ⟨hours, rhour, mhour⟩ := parseFieldChecked_of_fit "hour" hhour fhour
  obtain ⟨doms, rdom, mdom⟩ := parseFieldChecked_of_fit "day-of-month" hdom fdom
  obtain ⟨months, rmonth, mmonth⟩ := parseFieldChecked_of_fit "month" hmonth fmonth
  obtain ⟨dows, rdow, mdow⟩ := parseFieldChecked_of_fit "day-of-week" hdow fdow
  refine ⟨{ minutes, hours, doms, months, dows, domStar := dom = ['*'], dowStar := dow = ['*'] }, ?_, fun t => ?_⟩
  · rw [parseChecked, hwords]
    show (ExceptT.mk (parseFieldChecked minute 0 59 "minute") >>= _ : Run Schedule) = _
    rw [rminute, rhour, rdom, rmonth, rdow]
    rfl
  · have hdays : dayMatches { minutes, hours, doms, months, dows, domStar := dom = ['*'], dowStar := dow = ['*'] } t =
        true ↔ DayRule dom dow t.day t.weekday := by
      unfold dayMatches DayRule
      rw [← mdom, ← mdow]
      by_cases hd : dom = ['*'] <;> by_cases hw : dow = ['*'] <;> simp [hd, hw]
    unfold Schedule.matches
    simp only [Bool.and_eq_true, List.contains_iff_mem, hdays, and_assoc]
    rw [mminute, mhour, mmonth]
    constructor
    · rintro ⟨h₁, h₂, h₃, h₄⟩
      exact ⟨minute, hour, dom, month, dow, hwords, h₁, h₂, h₃, h₄⟩
    · rintro ⟨minute', hour', dom', month', dow', hwords', h⟩
      obtain ⟨rfl, rfl, rfl, rfl, rfl⟩ : minute = minute' ∧ hour = hour' ∧ dom = dom' ∧ month = month' ∧ dow = dow' := by
        simpa using hwords.symm.trans hwords'
      exact h

/-- A field that is read without overflow, and the reading behind it. -/
theorem bind_of_checked {β : Type} {k : List UInt8 → Run β} {k' : List UInt8 → Except CronParseError β}
    {r : Except CronParseError β} (h : (ExceptT.mk (parseFieldChecked field min max name) >>= k : Run β) = some r)
    (hk : ∀ out, k out = some r → k' out = r) : (parseField field min max name >>= k') = r := by
  rcases bind_eq_some h with ⟨e, hx, rfl⟩ | ⟨out, hx, h⟩
  · rw [parseField_of_checked hx]
    rfl
  · rw [parseField_of_checked hx]
    exact hk out h

/-- An expression that is read without overflow is read as the wrapping loops read it. -/
theorem parseCron_of_checked {r : Except CronParseError Schedule} (h : parseChecked expr = some r) :
    parseCron expr = r := by
  unfold parseChecked at h
  split at h
  · next minute hour dom month dow hwords =>
    unfold parseCron
    rw [hwords]
    refine bind_of_checked h fun minutes h => ?_
    refine bind_of_checked h fun hours h => ?_
    refine bind_of_checked h fun doms h => ?_
    refine bind_of_checked h fun months h => ?_
    refine bind_of_checked h fun dows h => ?_
    exact Option.some.inj h
  · next hwords =>
    obtain rfl := Option.some.inj h
    unfold parseCron
    split
    · next minute hour dom month dow hsame => exact absurd hsame (hwords minute hour dom month dow)
    · rfl

/-! ## The search -/

/-- A search that ends is the one without checks. -/
theorem searchMinute_of_checked {hit : Int → Option Bool} {p : Int → Bool} {limit : Int}
    (hhit : ∀ u b, hit u = some b → p u = b) {fuel : Nat} {t : Int} {r : Option Int} (hfuel : limit < t + 60 * fuel)
    (h : searchChecked hit limit (fuel + 1) t = some r) : searchMinute p limit fuel t = r := by
  induction fuel generalizing t with
  | zero =>
    rw [searchChecked, if_pos (by omega)] at h
    exact Option.some.inj h
  | succ fuel ih =>
    rw [searchChecked] at h
    rw [searchMinute]
    split at h
    · next hlimit =>
      rw [if_pos hlimit]
      exact Option.some.inj h
    · next hlimit =>
      rw [if_neg hlimit]
      obtain ⟨b, hb, h⟩ := Option.bind_eq_some_iff.1 h
      rw [hhit t b hb]
      cases b with
      | true => exact Option.some.inj h
      | false =>
        obtain ⟨t', ht', h⟩ := Option.bind_eq_some_iff.1 h
        have hsum : t' = t + 60 := by
          unfold plus at ht'
          split at ht'
          · exact (Option.some.inj ht').symm
          · cases ht'
        rw [hsum] at h
        exact ih (by push_cast at hfuel; omega) h

/-- While every sum stays in the range the search ends. -/
theorem searchChecked_ends {hit : Int → Option Bool} {limit start : Int}
    (hsums : ∀ u, start ≤ u → u ≤ limit → (∃ b, hit u = some b) ∧ plus u 60 = some (u + 60)) {fuel : Nat} {t : Int}
    (ht : start ≤ t) (hfuel : limit < t + 60 * fuel) :
    ∃ r, searchChecked hit limit (fuel + 1) t = some r := by
  induction fuel generalizing t with
  | zero =>
    rw [searchChecked, if_pos (by omega)]
    exact ⟨none, rfl⟩
  | succ fuel ih =>
    rw [searchChecked]
    split
    · exact ⟨none, rfl⟩
    · obtain ⟨⟨b, hb⟩, hsum⟩ := hsums t ht (by omega)
      rw [hb, hsum]
      cases b with
      | true => exact ⟨some t, rfl⟩
      | false => exact ih (by omega) (by push_cast at hfuel; omega)

/-- Nothing ahead of what is found matches. -/
theorem searchMinute_first {p : Int → Bool} {limit : Int} {fuel : Nat} {t u : Int}
    (h : searchMinute p limit fuel t = some u) {k : Nat} (hk : t + 60 * k < u) : p (t + 60 * k) = false := by
  induction fuel generalizing t k with
  | zero => cases h
  | succ fuel ih =>
    rw [searchMinute] at h
    split at h
    · cases h
    · split at h
      · obtain rfl := Option.some.inj h
        omega
      · next hp =>
        cases k with
        | zero => simpa using hp
        | succ k =>
          have hnext : t + 60 * ((k + 1 : Nat) : Int) = t + 60 + 60 * (k : Int) := by omega
          rw [hnext] at hk ⊢
          exact ih h hk

/-- At least 367 days inside the range. -/
def WellInside (after : Int) : Prop := minTimestamp + 367 * 86400 ≤ after ∧ after ≤ maxTimestamp - 367 * 86400

section NextFire

variable {Z : Zones} {tz : String} {offset : Int → Int} {after : Int} {sched : Schedule}

/-- No offset is more than a day. -/
def WithinADay (offset : Int → Int) : Prop := ∀ t, -86400 ≤ offset t ∧ offset t ≤ 86400

/-- The projection to the time zone and the comparison. -/
def hit (offset : Int → Int) (sched : Schedule) (t : Int) : Option Bool :=
  (plus t (offset t)).map fun wall => sched.matches (wallTime wall)

/-- An expression that is read, in a zone that there is: what is left is the search. -/
theorem nextFireChecked_eq (hsched : parseChecked expr = some (.ok sched)) (hzone : resolveTz Z tz = .ok offset)
    (hafter : InRange after) :
    nextFireChecked Z expr after tz =
      (plus (after - after % 60) 60).bind fun t => (plus after cronHorizon).bind fun limit =>
        (searchChecked (hit offset sched) limit (366 * 1440 + 1) t).map .ok := by
  unfold nextFireChecked
  rw [hsched, hzone]
  show (if ¬ InRange after then _ else _ : Run (Option Int)) = _
  rw [if_neg (not_not.2 hafter)]
  cases plus (after - after % 60) 60 with
  | none => rfl
  | some t =>
    cases plus after cronHorizon with
    | none => rfl
    | some limit => rfl

theorem plus_eq_some {t d u : Int} : plus t d = some u ↔ InRange (t + d) ∧ u = t + d := by
  unfold plus
  split
  · next h => simp [h, eq_comm]
  · next h => simp [h]

theorem nextFire_of_checked (hsched : parseChecked expr = some (.ok sched)) (hzone : resolveTz Z tz = .ok offset)
    {r : Option Int} (h : nextFireChecked Z expr after tz = some (.ok r)) : nextFire Z expr after tz = .ok r := by
  have hafter : InRange after := by
    by_contra hout
    have hrefused : nextFireChecked Z expr after tz = some (.error (.badField "after")) := by
      unfold nextFireChecked
      rw [hsched, hzone]
      show (if ¬ InRange after then _ else _ : Run (Option Int)) = _
      rw [if_pos hout]
      rfl
    rw [hrefused] at h
    cases h
  rw [nextFireChecked_eq hsched hzone hafter] at h
  obtain ⟨t, ht, h⟩ := Option.bind_eq_some_iff.1 h
  obtain ⟨limit, hlimit, h⟩ := Option.bind_eq_some_iff.1 h
  obtain ⟨r', hr, hrr⟩ := Option.map_eq_some_iff.1 h
  obtain rfl := Except.ok.inj hrr
  obtain ⟨-, rfl⟩ := plus_eq_some.1 ht
  obtain ⟨-, rfl⟩ := plus_eq_some.1 hlimit
  have hhit : ∀ u b, hit offset sched u = some b → sched.matches (wallTime (u + offset u)) = b := by
    intro u b hb
    obtain ⟨wall, hwall, rfl⟩ := Option.map_eq_some_iff.1 hb
    rw [(plus_eq_some.1 hwall).2]
  rw [nextFire, parseCron_of_checked hsched, hzone]
  exact congrArg Except.ok (searchMinute_of_checked hhit (by unfold cronHorizon; omega) hr)

theorem nextFireChecked_ends (hsched : parseChecked expr = some (.ok sched)) (hzone : resolveTz Z tz = .ok offset)
    (hoffset : WithinADay offset) (hafter : WellInside after) :
    ∃ r, nextFireChecked Z expr after tz = some (.ok r) := by
  obtain ⟨hlow, hhigh⟩ := hafter
  have hrange : ∀ u, after - 86400 ≤ u → u ≤ after + 367 * 86400 → InRange u := by
    intro u hlo hhi
    unfold minTimestamp at hlow
    unfold maxTimestamp at hhigh
    unfold InRange minTimestamp maxTimestamp
    omega
  have hsums : ∀ u, after ≤ u → u ≤ after + cronHorizon →
      (∃ b, hit offset sched u = some b) ∧ plus u 60 = some (u + 60) := by
    intro u hlo hhi
    obtain ⟨hmin, hmax⟩ := hoffset u
    unfold cronHorizon at hhi
    refine ⟨⟨sched.matches (wallTime (u + offset u)), ?_⟩, plus_eq_some.2 ⟨hrange _ (by omega) (by omega), rfl⟩⟩
    unfold hit
    rw [plus_eq_some.2 ⟨hrange _ (by omega) (by omega), rfl⟩]
    rfl
  obtain ⟨r, hr⟩ := searchChecked_ends (t := after - after % 60 + 60) hsums (by omega)
    (by unfold cronHorizon; omega : after + cronHorizon < after - after % 60 + 60 + 60 * ((366 * 1440 : Nat) : Int))
  refine ⟨r, ?_⟩
  rw [nextFireChecked_eq hsched hzone (hrange after (by omega) (by omega)),
    plus_eq_some.2 ⟨hrange _ (by omega) (by omega), rfl⟩,
    plus_eq_some.2 ⟨hrange _ (by unfold cronHorizon; omega) (by unfold cronHorizon; omega), rfl⟩]
  show (searchChecked (hit offset sched) (after + cronHorizon) (366 * 1440 + 1) (after - after % 60 + 60)).map _ = _
  rw [hr]
  rfl

/-- A time the expression means, on a whole minute. -/
def Fires (expr : String) (offset : Int → Int) (t : Int) : Prop := t % 60 = 0 ∧ Meant expr (wallTime (t + offset t))

/-- The next times one behind the other, the first behind `after`. -/
inductive Iterated (Z : Zones) (expr tz : String) : Int → List Int → Prop where
  | nil (after : Int) : Iterated Z expr tz after []
  | cons {after t : Int} {ts : List Int} (h : nextFireChecked Z expr after tz = some (.ok (some t)))
      (hrest : Iterated Z expr tz t ts) : Iterated Z expr tz after (t :: ts)

/-- What the next time should be. -/
structure NextFireRight (Z : Zones) (expr tz : String) (offset : Int → Int) : Prop where
  /-- The search ends without ending the program, with the first minute that is meant or with none. -/
  next : ∀ after, WellInside after → ∃ r, nextFireChecked Z expr after tz = some (.ok r) ∧
    (∀ t, r = some t → after < t ∧ Fires expr offset t ∧ ∀ u, after < u → u < t → ¬ Fires expr offset u) ∧
    (r = none → ∀ u, after < u → u ≤ after + cronHorizon → ¬ Fires expr offset u)
  /-- One behind the other they are the minutes that are meant, in order. -/
  iterated : ∀ after ts, Iterated Z expr tz after ts →
    (after :: ts).Pairwise (· < ·) ∧ ∀ t ∈ ts, ∀ u, after < u → u ≤ t → (Fires expr offset u ↔ u ∈ ts)

/-- What is found is the first minute that is meant. -/
theorem nextFire_first (hsched : parseCron expr = .ok sched) (hzone : resolveTz Z tz = .ok offset)
    (hmeant : ∀ t, sched.matches t = true ↔ Meant expr t) {t : Int}
    (h : nextFire Z expr after tz = .ok (some t)) :
    after < t ∧ Fires expr offset t ∧ ∀ u, after < u → u < t → ¬ Fires expr offset u := by
  obtain ⟨hlt, -, hmin, sched', offset', hsched', hzone', hmatches⟩ := nextFire_eq_some h
  obtain rfl := Except.ok.inj (hsched.symm.trans hsched')
  obtain rfl := Except.ok.inj (hzone.symm.trans hzone')
  refine ⟨hlt, ⟨hmin, (hmeant _).1 hmatches⟩, fun u hafter hu hfires => ?_⟩
  have hsearch : searchMinute (fun t => sched.matches (wallTime (t + offset t))) (after + cronHorizon) (366 * 1440)
      (after - after % 60 + 60) = some t := by
    rw [nextFire, hsched, hzone] at h
    exact Except.ok.inj h
  obtain ⟨hminute, hu'⟩ := hfires
  obtain ⟨k, rfl⟩ : ∃ k : Nat, u = after - after % 60 + 60 + 60 * k :=
    ⟨((u - (after - after % 60 + 60)) / 60).toNat, by omega⟩
  have hnot := searchMinute_first hsearch hu
  rw [(hmeant _).2 hu'] at hnot
  cases hnot

theorem nextFire_none (hsched : parseCron expr = .ok sched) (hzone : resolveTz Z tz = .ok offset)
    (hmeant : ∀ t, sched.matches t = true ↔ Meant expr t) (h : nextFire Z expr after tz = .ok none) :
    ∀ u, after < u → u ≤ after + cronHorizon → ¬ Fires expr offset u := by
  intro u hafter hu hfires
  have hnone : NoneWithin Z expr tz after := nextFire_eq_none.1 (by rw [h]; rfl)
  exact hnone u hafter hu hfires.1 ⟨sched, offset, hsched, hzone, (hmeant _).2 hfires.2⟩

/-- Behind one another the next times are the minutes that are meant. -/
theorem iterated_of_first (h : ∀ after t, nextFireChecked Z expr after tz = some (.ok (some t)) →
      after < t ∧ Fires expr offset t ∧ ∀ u, after < u → u < t → ¬ Fires expr offset u)
    {ts : List Int} (hts : Iterated Z expr tz after ts) :
    (after :: ts).Pairwise (· < ·) ∧ ∀ t ∈ ts, ∀ u, after < u → u ≤ t → (Fires expr offset u ↔ u ∈ ts) := by
  induction hts with
  | nil => simp
  | @cons after t ts hnext _ ih =>
    obtain ⟨hlt, hfires, hfirst⟩ := h after t hnext
    obtain ⟨hsorted, hmem⟩ := ih
    have hbehind : ∀ u ∈ ts, t < u := (List.pairwise_cons.1 hsorted).1
    refine ⟨List.pairwise_cons.2 ⟨fun u hu => ?_, hsorted⟩, fun last hlast u hafter hu => ?_⟩
    · rcases List.mem_cons.1 hu with rfl | hu
      · exact hlt
      · exact hlt.trans (hbehind u hu)
    · rcases lt_trichotomy u t with hut | rfl | hut
      · refine iff_of_false (hfirst u hafter hut) fun hu => ?_
        rcases List.mem_cons.1 hu with rfl | hu
        · omega
        · have := hbehind u hu
          omega
      · exact iff_of_true hfires List.mem_cons_self
      · rcases List.mem_cons.1 hlast with rfl | hlast
        · omega
        · rw [hmem last hlast u hut hu, List.mem_cons, or_iff_right (by omega)]

/-- For an expression that is accepted the next times are what they should be exactly when no part of
its fields overflows. -/
theorem nextFireRight_iff (haccepted : Accepted expr) (hzone : resolveTz Z tz = .ok offset)
    (hoffset : WithinADay offset) : NextFireRight Z expr tz offset ↔ FieldsFit expr := by
  constructor
  · intro h
    obtain ⟨r, hr, -⟩ := h.next 0 (by unfold WellInside minTimestamp maxTimestamp; omega)
    cases hsched : parseChecked expr with
    | none =>
      unfold nextFireChecked at hr
      rw [hsched] at hr
      cases hr
    | some q => exact parseChecked_fits haccepted hsched
  · intro hfits
    obtain ⟨sched, hsched, hmeant⟩ := parseChecked_of_fits haccepted hfits
    have hread := parseCron_of_checked hsched
    have hfirst : ∀ after t, nextFireChecked Z expr after tz = some (.ok (some t)) →
        after < t ∧ Fires expr offset t ∧ ∀ u, after < u → u < t → ¬ Fires expr offset u :=
      fun after t hnext => nextFire_first hread hzone hmeant (nextFire_of_checked hsched hzone hnext)
    refine ⟨fun after hafter => ?_, fun after ts => iterated_of_first hfirst⟩
    obtain ⟨r, hr⟩ := nextFireChecked_ends hsched hzone hoffset hafter
    refine ⟨r, hr, ?_, ?_⟩
    · rintro t rfl
      exact hfirst after t hr
    · rintro rfl
      exact nextFire_none hread hzone hmeant (nextFire_of_checked hsched hzone hr)

end NextFire

/-- At half past nine on working days. -/
theorem nextFireRight_iff_weekdays :
    NextFireRight (fun name => if name = "UTC" then some fun _ => 0 else none) "30 9 * * 1-5" "" fun _ => 0 := by
  obtain ⟨haccepted, hfits⟩ := accepted_of_parseChecked (by rfl : parseChecked "30 9 * * 1-5" = some (.ok _))
  have hoffset : WithinADay fun _ => 0 := fun _ => by
    show -86400 ≤ (0 : Int) ∧ (0 : Int) ≤ 86400
    omega
  exact (nextFireRight_iff haccepted rfl hoffset).2 hfits

/-- The last minute of every hour, with a step that leads out of the eight bits: the run ends in the
parser.  With sums that wrap every minute is found. -/
theorem nextFireRight_fails :
    Accepted "59/255 * * * *" ∧
      ¬ NextFireRight (fun name => if name = "UTC" then some fun _ => 0 else none) "59/255 * * * *" "" (fun _ => 0) ∧
      nextFire (fun name => if name = "UTC" then some fun _ => 0 else none) "59/255 * * * *" 0 "" = .ok (some 60) ∧
      ¬ Fires "59/255 * * * *" (fun _ => 0) 60 := by
  have hwords : RustStr.splitWhitespace "59/255 * * * *".toList = ["59/255".toList, ['*'], ['*'], ['*'], ['*']] := by
    rfl
  refine ⟨?_, ?_, ?_, ?_⟩
  · refine ⟨_, _, _, _, _, hwords, ⟨_, fieldOf_overflowing⟩, ?_, ?_, ?_, ?_⟩
    · exact (of_parseFieldChecked (by rfl : parseFieldChecked ['*'] 0 23 "hour" = some (.ok _))).1
    · exact (of_parseFieldChecked (by rfl : parseFieldChecked ['*'] 1 31 "day-of-month" = some (.ok _))).1
    · exact (of_parseFieldChecked (by rfl : parseFieldChecked ['*'] 1 12 "month" = some (.ok _))).1
    · exact (of_parseFieldChecked (by rfl : parseFieldChecked ['*'] 0 6 "day-of-week" = some (.ok _))).1
  · intro h
    obtain ⟨r, hr, -⟩ := h.next 0 (by unfold WellInside minTimestamp maxTimestamp; omega)
    have hnone : parseChecked "59/255 * * * *" = none := by rfl
    unfold nextFireChecked at hr
    rw [hnone] at hr
    cases hr
  · rfl
  · rintro ⟨-, minute, hour, dom, month, dow, hwords', hminute, -⟩
    obtain ⟨rfl, -⟩ := List.cons.inj (hwords.symm.trans hwords')
    obtain ⟨part, hpart, lo, hi, step, hmeans, hlo, -⟩ := hminute
    rw [(fieldOf_iff.1 fieldOf_overflowing).1.symm, List.mem_singleton] at hpart
    subst hpart
    obtain ⟨rfl, -, -⟩ := hmeans.unique overflowing_means
    exact absurd hlo (by decide)

end CronTimes

end OhMyClaw
