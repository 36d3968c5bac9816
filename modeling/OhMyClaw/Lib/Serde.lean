import OhMyClaw.Lib.Json

/-!
# Derived serialisation

What a derived serialiser and deserialiser do with a type, put together from what they do with its
parts.  A `Codec` writes any JSON value; the `Members` of a struct or of a tagged enum are written
as one object.  Each of them carries the proof that reading what was written gives the value back,
so a description of a type is a round trip for it.

    Record.field      a struct, attribute by attribute
    Members.tagged    an enum whose variant is named among the members of its payload
    Members.adjacent  an enum whose payload is a member of its own, beside the name of its variant

Read here is what these serialisers write, with unknown members skipped and missing ones filled in;
a struct given as an array of its fields and a variant given by its number are not.
-/

namespace Json

/-- The integer a number stands for.  A minus zero is a floating-point number, and so is everything
with a fraction or an exponent. -/
def Number.toInt? (n : Number) : Option Int :=
  match n.literal with
  | '-' :: digits =>
    let value := Nat.ofDigitChars 10 digits 0
    if digits.all isDigit ∧ value ≠ 0 then some (-value) else none
  | digits => if digits.all isDigit then some (Nat.ofDigitChars 10 digits 0) else none

theorem all_isDigit_toDigits (n : Nat) : (Nat.toDigits 10 n).all isDigit = true := by
  induction n using Nat.strong_induction_on with
  | _ n ih =>
    have hdigit : ∀ d < 10, isDigit (Nat.digitChar d) = true := by decide
    by_cases hlt : n < 10
    · rw [Nat.toDigits_of_lt_base hlt]
      simpa using hdigit n hlt
    · rw [Nat.toDigits_of_base_le (by decide) (by omega), List.all_append, ih (n / 10) (by omega)]
      simpa using hdigit (n % 10) (Nat.mod_lt _ (by decide))

theorem toDigits_ne_minus (n : Nat) (digits : List Char) : Nat.toDigits 10 n ≠ '-' :: digits := by
  intro h
  have hall := all_isDigit_toDigits n
  rw [h, List.all_cons] at hall
  exact absurd (Bool.and_eq_true_iff.1 hall).1 (by decide)

theorem Number.toInt?_ofInt (i : Int) : (Number.ofInt i).toInt? = some i := by
  cases i with
  | ofNat n =>
    show (Number.ofNat n).toInt? = _
    unfold Number.toInt?
    split
    · next digits h => exact absurd h (toDigits_ne_minus n digits)
    · next h =>
      show (if (Nat.toDigits 10 n).all isDigit = true then _ else _) = _
      rw [if_pos (all_isDigit_toDigits n)]
      exact congrArg (fun v : Nat => some (v : Int)) Nat.ofDigitChars_ten_toDigits
  | negSucc n =>
    have hvalue : Nat.ofDigitChars 10 (Nat.toDigits 10 (n + 1)) 0 = n + 1 := Nat.ofDigitChars_ten_toDigits
    show (if (Nat.toDigits 10 (n + 1)).all isDigit = true ∧ _ ≠ 0 then some (-(_ : Int)) else none) = _
    rw [if_pos ⟨all_isDigit_toDigits _, by omega⟩, hvalue]
    rfl

end Json

namespace Serde

/-! ## Values -/

/-- How the values of a type are written and read. -/
structure Codec (α : Type) where
  ser : α → Json
  de : Json → Option α
  de_ser : ∀ a, de (ser a) = some a
  /-- `null` is left to stand for a value that is not there. -/
  ser_ne_null : ∀ a, ser a ≠ .null

namespace Codec

variable {α β : Type}

def str : Codec String where
  ser := .str
  de
    | .str s => some s
    | _ => none
  de_ser _ := rfl
  ser_ne_null _ := Json.noConfusion

def bool : Codec Bool where
  ser := .bool
  de
    | .bool b => some b
    | _ => none
  de_ser _ := rfl
  ser_ne_null _ := Json.noConfusion

/-- A type of integers; `ofInt?` refuses what is out of its range. -/
def int (toInt : α → Int) (ofInt? : Int → Option α) (h : ∀ a, ofInt? (toInt a) = some a) : Codec α where
  ser a := .num (.ofInt (toInt a))
  de
    | .num n => n.toInt?.bind ofInt?
    | _ => none
  de_ser a := by simp [Json.Number.toInt?_ofInt, h]
  ser_ne_null _ := Json.noConfusion

def u16 : Codec UInt16 :=
  int (·.toNat) (fun i => if 0 ≤ i ∧ i < 2 ^ 16 then some (.ofNat i.toNat) else none) fun a => by
    have := a.toNat_lt
    simp [this]

def u32 : Codec UInt32 :=
  int (·.toNat) (fun i => if 0 ≤ i ∧ i < 2 ^ 32 then some (.ofNat i.toNat) else none) fun a => by
    have := a.toNat_lt
    simp [this]

def u64 : Codec UInt64 :=
  int (·.toNat) (fun i => if 0 ≤ i ∧ i < 2 ^ 64 then some (.ofNat i.toNat) else none) fun a => by
    have := a.toNat_lt
    simp [this]

def i64 : Codec Int64 :=
  int (·.toInt) (fun i => if -2 ^ 63 ≤ i ∧ i < 2 ^ 63 then some (.ofInt i) else none) fun a => by
    simp only [if_pos (And.intro a.le_toInt a.toInt_lt), Int64.ofInt_toInt]

theorem mapM_de_ser (c : Codec α) (as : List α) : (as.map c.ser).mapM c.de = some as := by
  induction as with
  | nil => rfl
  | cons a as ih => simp [c.de_ser, ih]

def list (c : Codec α) : Codec (List α) where
  ser as := .arr (as.map c.ser)
  de
    | .arr js => js.mapM c.de
    | _ => none
  de_ser := c.mapM_de_ser
  ser_ne_null _ := Json.noConfusion

/-- An enum of variants without payload, by their names. -/
def names (all : List α) (name : α → String) (h : ∀ a, all.find? (name · = name a) = some a) : Codec α where
  ser a := .str (name a)
  de
    | .str s => all.find? (name · = s)
    | _ => none
  de_ser := h
  ser_ne_null _ := Json.noConfusion

end Codec

/-! ## Members -/

/-- The value of a member, if it is there.  It must not be there twice. -/
def lookup (key : String) (ms : List (String × Json)) : Option (Option Json) :=
  match ms.filter (·.1 = key) with
  | [] => some none
  | [m] => some (some m.2)
  | _ => none

theorem lookup_cons_of_ne {key : String} {m : String × Json} (h : m.1 ≠ key) (ms : List (String × Json)) :
    lookup key (m :: ms) = lookup key ms := by
  simp [lookup, h]

theorem filter_key_eq_nil {key : String} {ms : List (String × Json)} (h : ∀ m ∈ ms, m.1 ≠ key) :
    ms.filter (·.1 = key) = [] := by
  simpa [List.filter_eq_nil_iff] using fun k j hm => h (k, j) hm

theorem lookup_absent {key : String} {ms : List (String × Json)} (h : ∀ m ∈ ms, m.1 ≠ key) :
    lookup key ms = some none := by
  rw [lookup, filter_key_eq_nil h]

theorem lookup_head {key : String} {ms : List (String × Json)} (h : ∀ m ∈ ms, m.1 ≠ key) (j : Json) :
    lookup key ((key, j) :: ms) = some (some j) := by
  rw [lookup, List.filter_cons_of_pos (by simp), filter_key_eq_nil h]

/-- A field of a struct: the member it is written as, if any, and what is made of the member, or of
there being none. -/
structure Field (α : Type) where
  key : String
  write : α → Option Json
  read : Option Json → Option α
  read_write : ∀ a, read (write a) = some a

namespace Field

variable {α : Type}

def required (key : String) (c : Codec α) : Field α where
  key
  write a := some (c.ser a)
  read j := j.bind c.de
  read_write := c.de_ser

/-- `default` on its own: always written, filled in when missing. -/
def defaulted (key : String) (c : Codec α) (default : α) : Field α where
  key
  write a := some (c.ser a)
  read
    | none => some default
    | some j => c.de j
  read_write := c.de_ser

/-- A field that is not written when it has the value that is filled in. -/
def skipDefault [DecidableEq α] (key : String) (c : Codec α) (default : α) : Field α where
  key
  write a := if a = default then none else some (c.ser a)
  read
    | none => some default
    | some j => c.de j
  read_write a := by
    by_cases h : a = default
    · simp [h]
    · simp [h, c.de_ser]

/-- What is read for an optional field: `null` and no member at all are the same. -/
def readOption (c : Codec α) : Option Json → Option (Option α)
  | none => some none
  | some .null => some none
  | some j => (c.de j).map some

theorem readOption_ser (c : Codec α) (a : α) : readOption c (some (c.ser a)) = some (some a) := by
  have hnull := c.ser_ne_null a
  have hback := c.de_ser a
  cases hj : c.ser a with
  | null => exact absurd hj hnull
  | _ =>
    rw [hj] at hback
    simp [readOption, hback]

/-- An optional field, written as `null` when there is no value. -/
def option (key : String) (c : Codec α) : Field (Option α) where
  key
  write a := some (a.elim .null c.ser)
  read := readOption c
  read_write a := by
    cases a with
    | none => rfl
    | some a => exact readOption_ser c a

/-- An optional field, not written when there is no value. -/
def skipNone (key : String) (c : Codec α) : Field (Option α) where
  key
  write a := a.map c.ser
  read := readOption c
  read_write a := by
    cases a with
    | none => rfl
    | some a => exact readOption_ser c a

/-- The member a field is written as. -/
def members (f : Field α) (a : α) : List (String × Json) := ((f.write a).map (f.key, ·)).toList

theorem key_of_mem {f : Field α} {a : α} {m : String × Json} (h : m ∈ f.members a) : m.1 = f.key := by
  obtain ⟨j, -, rfl⟩ := Option.map_eq_some_iff.1 (Option.mem_toList.1 h)
  rfl

/-- In front of other members, a field is found. -/
theorem lookup_members (f : Field α) (a : α) {ms : List (String × Json)} (h : ∀ m ∈ ms, m.1 ≠ f.key) :
    lookup f.key (f.members a ++ ms) = some (f.write a) := by
  cases hwrite : f.write a with
  | none => simpa [members, hwrite] using lookup_absent h
  | some j => simpa [members, hwrite] using lookup_head h j

end Field

/-- How the values of a type are written as the members of an object, with all keys that may be
among them. -/
structure Members (α : Type) where
  keys : List String
  write : α → List (String × Json)
  read : List (String × Json) → Option α
  key_mem : ∀ a, ∀ m ∈ write a, m.1 ∈ keys
  read_write : ∀ a, read (write a) = some a

namespace Members

variable {α : Type}

def codec (r : Members α) : Codec α where
  ser a := .obj (r.write a)
  de
    | .obj ms => r.read ms
    | _ => none
  de_ser := r.read_write
  ser_ne_null _ := Json.noConfusion

theorem keys_mem (r : Members α) {keys : List String} (h : ∀ key ∈ r.keys, key ∈ keys) (a : α) :
    ∀ m ∈ r.write a, m.1 ∈ keys := fun m hm => h m.1 (r.key_mem a m hm)

theorem key_ne (r : Members α) {key : String} (h : key ∉ r.keys) (a : α) : ∀ m ∈ r.write a, m.1 ≠ key := by
  rintro m hm rfl
  exact h (r.key_mem a m hm)

/-- An enum with an internal tag: the name of the variant is one more member of its payload.
`keys` are those of all payloads. -/
def tagged (tag : String) (keys : List String) (write : α → String × List (String × Json))
    (read : String → List (String × Json) → Option α) (key_mem : ∀ a, ∀ m ∈ (write a).2, m.1 ∈ keys)
    (tag_notMem : tag ∉ keys) (read_write : ∀ a, read (write a).1 (write a).2 = some a) : Members α where
  keys := tag :: keys
  write a := (tag, .str (write a).1) :: (write a).2
  read ms :=
    match lookup tag ms with
    | some (some (.str name)) => read name (ms.filter (·.1 ≠ tag))
    | _ => none
  key_mem a m hm := by
    rcases List.mem_cons.1 hm with rfl | hm
    · exact List.mem_cons_self
    · exact List.mem_cons_of_mem _ (key_mem a m hm)
  read_write a := by
    have hne : ∀ m ∈ (write a).2, m.1 ≠ tag := by
      rintro m hm rfl
      exact tag_notMem (key_mem a m hm)
    have hfilter : (write a).2.filter (·.1 ≠ tag) = (write a).2 :=
      List.filter_eq_self.2 fun m hm => decide_eq_true (hne m hm)
    simp only [lookup_head hne]
    rw [List.filter_cons_of_neg (by simp), hfilter, read_write]

/-- An enum with its payload beside the tag. -/
def adjacent (tag content : String) (write : α → String × Option Json) (read : String → Option Json → Option α)
    (tag_ne : tag ≠ content) (read_write : ∀ a, read (write a).1 (write a).2 = some a) : Members α where
  keys := [tag, content]
  write a := (tag, .str (write a).1) :: ((write a).2.map (content, ·)).toList
  read ms :=
    match lookup tag ms, lookup content ms with
    | some (some (.str name)), some payload => read name payload
    | _, _ => none
  key_mem a m hm := by
    rcases List.mem_cons.1 hm with rfl | hm
    · exact List.mem_cons_self
    · obtain ⟨j, -, rfl⟩ := Option.map_eq_some_iff.1 (Option.mem_toList.1 hm)
      exact List.mem_cons_of_mem _ List.mem_cons_self
  read_write a := by
    have hback := read_write a
    cases hpayload : (write a).2 with
    | none =>
      rw [hpayload] at hback
      simp [lookup, tag_ne, hback]
    | some j =>
      rw [hpayload] at hback
      simp [lookup, tag_ne, tag_ne.symm, hback]

end Members

/-! The readers of a variant: beside its tag with one value or without, and among its tag's members. -/

def newtype {α β : Type} (c : Codec β) (variant : β → α) : Option Json → Option α
  | some j => (c.de j).map variant
  | none => none

def unit {α : Type} (variant : α) : Option Json → Option α
  | some .null => some variant
  | some _ => none
  | none => some variant

def struct {α β : Type} (r : Members β) (variant : β → α) (ms : List (String × Json)) : Option α :=
  (r.read ms).map variant

@[simp] theorem newtype_ser {α β : Type} (c : Codec β) (variant : β → α) (b : β) :
    newtype c variant (some (c.ser b)) = some (variant b) := by
  simp [newtype, c.de_ser]

@[simp] theorem struct_write {α β : Type} (r : Members β) (variant : β → α) (b : β) :
    struct r variant (r.write b) = some (variant b) := by
  simp [struct, r.read_write]

/-! ## Structs -/

/-- A struct does not look at members that are not its own. -/
structure Record (α : Type) extends Members α where
  read_cons : ∀ m ms, m.1 ∉ keys → read (m :: ms) = read ms

namespace Record

variable {α β : Type}

theorem read_append (r : Record α) {front : List (String × Json)} (h : ∀ m ∈ front, m.1 ∉ r.keys)
    (ms : List (String × Json)) : r.read (front ++ ms) = r.read ms := by
  induction front with
  | nil => rfl
  | cons m front ih =>
    rw [List.cons_append, r.read_cons m _ (h m List.mem_cons_self),
      ih fun m' hm' => h m' (List.mem_cons_of_mem _ hm')]

/-- A struct with one field. -/
def last (f : Field α) : Record α where
  keys := [f.key]
  write := f.members
  read ms := (lookup f.key ms).bind f.read
  key_mem _ _ hm := List.mem_singleton.2 (Field.key_of_mem hm)
  read_write a := by
    have hfound : lookup f.key (f.members a ++ []) = some (f.write a) := f.lookup_members a (by simp)
    rw [List.append_nil] at hfound
    rw [hfound, Option.bind_some, f.read_write]
  read_cons m ms hm := by
    rw [lookup_cons_of_ne fun h => hm (List.mem_singleton.2 h)]

/-- A struct with one field more. -/
def field (f : Field α) (r : Record β) (h : f.key ∉ r.keys := by decide) : Record (α × β) where
  keys := f.key :: r.keys
  write p := f.members p.1 ++ r.write p.2
  read ms := (lookup f.key ms).bind fun j => (f.read j).bind fun a => (r.read ms).map (a, ·)
  key_mem p m hm := by
    rcases List.mem_append.1 hm with hm | hm
    · exact List.mem_cons.2 (Or.inl (Field.key_of_mem hm))
    · exact List.mem_cons_of_mem _ (r.key_mem p.2 m hm)
  read_write p := by
    have hrest : r.read (f.members p.1 ++ r.write p.2) = some p.2 := by
      rw [r.read_append (fun m hm => Field.key_of_mem hm ▸ h), r.read_write]
    simp [f.lookup_members p.1 (r.key_ne h p.2), f.read_write, hrest]
  read_cons m ms hm := by
    obtain ⟨hkey, hkeys⟩ := not_or.1 (mt List.mem_cons.2 hm)
    simp only [lookup_cons_of_ne hkey, r.read_cons m ms hkeys]

/-- A struct by the tuple of its fields. -/
def map (r : Record β) (fields : α → β) (make : β → α) (h : ∀ a, make (fields a) = a) : Record α where
  keys := r.keys
  write a := r.write (fields a)
  read ms := (r.read ms).map make
  key_mem a := r.key_mem (fields a)
  read_write a := by simp [r.read_write, h]
  read_cons m ms hm := by rw [r.read_cons m ms hm]

end Record

end Serde
