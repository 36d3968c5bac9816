import Mathlib.Data.List.Basic

/-!
# Base64

The standard encoding: three bytes are four letters of six bits each, the most significant first; a rest of
one byte is two letters and a rest of two bytes three, filled up with noughts.  Padded, such a rest is filled
up to four characters.

    encode_letters      an encoding consists of letters
-/

namespace Base64

def alphabet : List Char := "ABCDEFGHIJKLMNOPQRSTUVWXYZabcdefghijklmnopqrstuvwxyz0123456789+/".toList

/-- The letter of six bits. -/
def letter (v : Nat) : Char := alphabet.getD v 'A'

def encode : List UInt8 → List Char
  | [] => []
  | [a] => [letter (a.toNat / 4), letter (a.toNat % 4 * 16)]
  | [a, b] => [letter (a.toNat / 4), letter (a.toNat % 4 * 16 + b.toNat / 16), letter (b.toNat % 16 * 4)]
  | a :: b :: c :: bs =>
    letter (a.toNat / 4) :: letter (a.toNat % 4 * 16 + b.toNat / 16) ::
      letter (b.toNat % 16 * 4 + c.toNat / 64) :: letter (c.toNat % 64) :: encode bs

/-- What fills an encoding up to a multiple of four. -/
def padding (bs : List UInt8) : List Char := List.replicate ((3 - bs.length % 3) % 3) '='

def encodePadded (bs : List UInt8) : List Char := encode bs ++ padding bs

theorem letter_mem (v : Nat) : letter v ∈ alphabet := by
  unfold letter
  rw [List.getD_eq_getElem?_getD]
  cases h : alphabet[v]? with
  | none => decide
  | some c => exact List.mem_of_getElem? h

theorem encode_letters (bs : List UInt8) : ∀ c ∈ encode bs, c ∈ alphabet := by
  induction bs using encode.induct with
  | case1 => simp [encode]
  | case2 a => simp [encode, letter_mem]
  | case3 a b => simp [encode, letter_mem]
  | case4 a b c bs ih =>
    rw [encode]
    simp only [List.forall_mem_cons]
    exact ⟨letter_mem _, letter_mem _, letter_mem _, letter_mem _, ih⟩

end Base64
