import Mathlib.Algebra.Ring.Nat
import Mathlib.Data.List.Infix

/-!
# Byte positions in a text

A text is a list of characters; a position in it is a number of bytes of its UTF-8 encoding.  A
slice ends the program when one of its ends is past the text or inside a character, which is
`none` here.

    splitAt_eq_some   the two sides of a position
    prefix_of_len_le  an earlier position cuts off a prefix
-/

namespace Bytes

variable {s a b a' b' : List Char} {n : Nat}

/-- `str::len`. -/
def len (s : List Char) : Nat := (s.map Char.utf8Size).sum

@[simp] theorem len_nil : len [] = 0 := rfl

@[simp] theorem len_cons (c : Char) (s : List Char) : len (c :: s) = c.utf8Size + len s := rfl

@[simp] theorem len_append (a b : List Char) : len (a ++ b) = len a + len b := by
  simp [len]

theorem len_eq_zero : len s = 0 ↔ s = [] := by
  cases s with
  | nil => simp
  | cons c s =>
    have := c.utf8Size_pos
    simp only [len_cons, reduceCtorEq, iff_false]
    omega

theorem len_replicate (n : Nat) (c : Char) : len (List.replicate n c) = n * c.utf8Size := by
  simp [len]

/-- The text up to a position and the text from it on. -/
def splitAt : Nat → List Char → Option (List Char × List Char)
  | 0, s => some ([], s)
  | _ + 1, [] => none
  | n + 1, c :: s =>
    if c.utf8Size ≤ n + 1 then (splitAt (n + 1 - c.utf8Size) s).map fun r => (c :: r.1, r.2) else none

/-- `str::is_char_boundary`. -/
def isCharBoundary (s : List Char) (n : Nat) : Bool := (splitAt n s).isSome

def sliceTo (s : List Char) (n : Nat) : Option (List Char) := (splitAt n s).map (·.1)

def sliceFrom (s : List Char) (n : Nat) : Option (List Char) := (splitAt n s).map (·.2)

@[simp] theorem splitAt_zero (s : List Char) : splitAt 0 s = some ([], s) := by
  cases s <;> rfl

theorem splitAt_len (a b : List Char) : splitAt (len a) (a ++ b) = some (a, b) := by
  induction a with
  | nil => exact splitAt_zero b
  | cons c a ih =>
    obtain ⟨k, hk⟩ := Nat.exists_eq_add_one.2 c.utf8Size_pos
    have hlen : len (c :: a) = k + len a + 1 := by
      rw [len_cons, hk]
      omega
    have hrest : k + len a + 1 - c.utf8Size = len a := by omega
    rw [List.cons_append, hlen, splitAt, if_pos (by omega), hrest, ih]
    rfl

theorem splitAt_eq_some : splitAt n s = some (a, b) ↔ s = a ++ b ∧ len a = n := by
  constructor
  · intro h
    induction s generalizing n a with
    | nil =>
      cases n with
      | zero =>
        obtain ⟨rfl, rfl⟩ := Prod.mk.inj (Option.some.inj h)
        exact ⟨rfl, rfl⟩
      | succ n => cases h
    | cons c s ih =>
      cases n with
      | zero =>
        obtain ⟨rfl, rfl⟩ := Prod.mk.inj (Option.some.inj h)
        exact ⟨rfl, rfl⟩
      | succ n =>
        rw [splitAt] at h
        split at h
        · next hc =>
          obtain ⟨r, hr, hab⟩ := Option.map_eq_some_iff.1 h
          obtain ⟨rfl, rfl⟩ := Prod.mk.inj hab
          obtain ⟨hs, hlen⟩ := ih hr
          refine ⟨by rw [hs]; rfl, ?_⟩
          rw [len_cons, hlen]
          omega
        · cases h
  · rintro ⟨rfl, rfl⟩
    exact splitAt_len a b

theorem isCharBoundary_iff : isCharBoundary s n = true ↔ ∃ a b, s = a ++ b ∧ len a = n := by
  unfold isCharBoundary
  rw [Option.isSome_iff_exists]
  constructor
  · rintro ⟨r, hr⟩
    exact ⟨r.1, r.2, splitAt_eq_some.1 hr⟩
  · rintro ⟨a, b, h⟩
    exact ⟨(a, b), splitAt_eq_some.2 h⟩

theorem sliceTo_eq_some : sliceTo s n = some a ↔ ∃ b, s = a ++ b ∧ len a = n := by
  unfold sliceTo
  rw [Option.map_eq_some_iff]
  constructor
  · rintro ⟨r, hr, rfl⟩
    exact ⟨r.2, splitAt_eq_some.1 hr⟩
  · rintro ⟨b, h⟩
    exact ⟨(a, b), splitAt_eq_some.2 h, rfl⟩

theorem sliceFrom_eq_some : sliceFrom s n = some b ↔ ∃ a, s = a ++ b ∧ len a = n := by
  unfold sliceFrom
  rw [Option.map_eq_some_iff]
  constructor
  · rintro ⟨r, hr, rfl⟩
    exact ⟨r.1, splitAt_eq_some.1 hr⟩
  · rintro ⟨a, h⟩
    exact ⟨(a, b), splitAt_eq_some.2 h, rfl⟩

theorem isCharBoundary_zero (s : List Char) : isCharBoundary s 0 = true :=
  isCharBoundary_iff.2 ⟨[], s, rfl, rfl⟩

theorem isCharBoundary_len (s : List Char) : isCharBoundary s (len s) = true :=
  isCharBoundary_iff.2 ⟨s, [], (List.append_nil s).symm, rfl⟩

/-- Of two positions in a text the earlier cuts off a prefix of what the later does. -/
theorem prefix_of_len_le (h : a ++ b = a' ++ b') (hle : len a ≤ len a') : ∃ m, a' = a ++ m ∧ b = m ++ b' := by
  rcases List.append_eq_append_iff.1 h with ⟨m, rfl, rfl⟩ | ⟨m, rfl, rfl⟩
  · exact ⟨m, rfl, rfl⟩
  · rw [len_append] at hle
    obtain rfl : m = [] := len_eq_zero.1 (by omega)
    exact ⟨[], by simp, by simp⟩

/-- In a text of one character the positions between characters are the multiples of its size. -/
theorem isCharBoundary_replicate {c : Char} {k : Nat} (h : isCharBoundary (List.replicate k c) n = true) :
    c.utf8Size ∣ n := by
  obtain ⟨a, b, hs, rfl⟩ := isCharBoundary_iff.1 h
  obtain ⟨-, ha, -⟩ := List.append_eq_replicate_iff.1 hs.symm
  rw [ha, len_replicate]
  exact Nat.dvd_mul_left _ _

end Bytes
