import OhMyClaw.Lib.Bytes

/-!
# Blocks cut out of a text

`next t` says whether a block begins at the head of `t`: `none` if not, `some (some r)` if it does
and `r` is behind it, `some none` if it does and never ends.  What is left of a text when its
blocks are cut out is told with the byte each character stands at.

    Hop next t r       `r` is behind the blocks that follow one another from the head of `t` on
    Left next s t ks   `ks` is left of `t`, the end of the text `s`
    left_head          the first character left stands behind the blocks at the head
-/

namespace CutOut

open Bytes

variable {next : List Char → Option (Option (List Char))} {s t t' r b : List Char} {ks ks' : List (Nat × Char)}

/-- A block is not empty and is cut off at the head. -/
def Shrinks (next : List Char → Option (Option (List Char))) : Prop :=
  ∀ t r, next t = some (some r) → ∃ m, m ≠ [] ∧ t = m ++ r

/-- `none` when the last of the blocks never ends. -/
inductive Hop (next : List Char → Option (Option (List Char))) : List Char → Option (List Char) → Prop where
  | stay {t : List Char} (h : next t = none) : Hop next t (some t)
  | lost {t : List Char} (h : next t = some none) : Hop next t none
  | on {t t' : List Char} {o : Option (List Char)} (h : next t = some (some t')) (ho : Hop next t' o) :
      Hop next t o

theorem exists_hop (hnext : Shrinks next) (t : List Char) : ∃ o, Hop next t o := by
  induction hn : t.length using Nat.strong_induction_on generalizing t with
  | _ n ih =>
    cases h : next t with
    | none => exact ⟨_, .stay h⟩
    | some o =>
      cases o with
      | none => exact ⟨_, .lost h⟩
      | some t' =>
        obtain ⟨m, hm, rfl⟩ := hnext t t' h
        have hlt : t'.length < n := by
          have := List.length_pos_iff.2 hm
          rw [← hn, List.length_append]
          omega
        obtain ⟨o, ho⟩ := ih t'.length hlt t' rfl
        exact ⟨o, .on h ho⟩

theorem Hop.det {o o' : Option (List Char)} (h : Hop next t o) (h' : Hop next t o') : o = o' := by
  induction h with
  | stay h =>
    cases h' with
    | stay _ => rfl
    | lost h' => rw [h] at h'; cases h'
    | on h' _ => rw [h] at h'; cases h'
  | lost h =>
    cases h' with
    | stay h' => rw [h] at h'; cases h'
    | lost _ => rfl
    | on h' _ => rw [h] at h'; cases h'
  | on h _ ih =>
    cases h' with
    | stay h' => rw [h] at h'; cases h'
    | lost h' => rw [h] at h'; cases h'
    | on h' ho' =>
      rw [h] at h'
      cases h'
      exact ih ho'

theorem Hop.suffix (hnext : Shrinks next) {o : Option (List Char)} (h : Hop next t o) :
    ∀ r, o = some r → ∃ m, t = m ++ r ∧ next r = none := by
  induction h with
  | stay h =>
    intro r hr
    cases hr
    exact ⟨[], rfl, h⟩
  | lost h =>
    intro r hr
    cases hr
  | on h _ ih =>
    intro r hr
    obtain ⟨m, rfl, hr⟩ := ih r hr
    obtain ⟨m', -, rfl⟩ := hnext _ _ h
    exact ⟨m' ++ m, by rw [List.append_assoc], hr⟩

/-! ## What is left -/

/-- The byte of `s` at which its end `b` begins. -/
def pos (s b : List Char) : Nat := len s - len b

inductive Left (next : List Char → Option (Option (List Char))) (s : List Char) :
    List Char → List (Nat × Char) → Prop where
  | nil (h : next [] = none) : Left next s [] []
  | char {c : Char} {b : List Char} {ks : List (Nat × Char)} (h : next (c :: b) = none)
      (hb : Left next s b ks) : Left next s (c :: b) ((pos s (c :: b), c) :: ks)
  | block {t b : List Char} {ks : List (Nat × Char)} (h : next t = some (some b))
      (hb : Left next s b ks) : Left next s t ks
  | unclosed {t : List Char} (h : next t = some none) : Left next s t []

theorem pos_self (s : List Char) : pos s s = 0 := Nat.sub_self _

theorem pos_append (a b : List Char) : pos (a ++ b) b = len a := by
  unfold pos
  rw [len_append]
  omega

theorem pos_tail {a b : List Char} {c : Char} (h : s = a ++ c :: b) : pos s b = pos s (c :: b) + c.utf8Size := by
  subst h
  simp only [pos, len_append, len_cons]
  omega

theorem exists_left (hnext : Shrinks next) (s t : List Char) : ∃ ks, Left next s t ks := by
  induction hn : t.length using Nat.strong_induction_on generalizing t with
  | _ n ih =>
    cases h : next t with
    | none =>
      cases t with
      | nil => exact ⟨[], .nil h⟩
      | cons c b =>
        obtain ⟨ks, hks⟩ := ih b.length (by rw [← hn]; simp) b rfl
        exact ⟨_, .char h hks⟩
    | some o =>
      cases o with
      | none => exact ⟨[], .unclosed h⟩
      | some b =>
        obtain ⟨m, hm, rfl⟩ := hnext t b h
        have hlt : b.length < n := by
          have := List.length_pos_iff.2 hm
          rw [← hn, List.length_append]
          omega
        obtain ⟨ks, hks⟩ := ih b.length hlt b rfl
        exact ⟨ks, .block h hks⟩

theorem left_none (h : next t = none) (hks : Left next s t ks) :
    t = [] ∧ ks = [] ∨ ∃ c b ks', t = c :: b ∧ ks = (pos s (c :: b), c) :: ks' ∧ Left next s b ks' := by
  cases hks with
  | nil _ => exact Or.inl ⟨rfl, rfl⟩
  | char _ hb => exact Or.inr ⟨_, _, _, rfl, rfl, hb⟩
  | block h' _ => rw [h] at h'; cases h'
  | unclosed h' => rw [h] at h'; cases h'

theorem left_block (h : next t = some (some b)) : Left next s t ks ↔ Left next s b ks := by
  constructor
  · intro hks
    cases hks with
    | nil h' => rw [h] at h'; cases h'
    | char h' _ => rw [h] at h'; cases h'
    | block h' hb =>
      rw [h] at h'
      cases h'
      exact hb
    | unclosed h' => rw [h] at h'; cases h'
  · exact .block h

theorem left_unclosed (h : next t = some none) (hks : Left next s t ks) : ks = [] := by
  cases hks with
  | nil _ => rfl
  | char h' _ => rw [h] at h'; cases h'
  | block h' _ => rw [h] at h'; cases h'
  | unclosed _ => rfl

theorem left_nil (hnext : Shrinks next) (hks : Left next s [] ks) : ks = [] := by
  cases hks with
  | nil _ => rfl
  | block h _ =>
    obtain ⟨m, hm, hnil⟩ := hnext _ _ h
    exact absurd (List.append_eq_nil_iff.1 hnil.symm).1 hm
  | unclosed _ => rfl

/-- The blocks at the head leave nothing. -/
theorem left_hop {o : Option (List Char)} (h : Hop next t o) :
    Left next s t ks ↔ o.elim (ks = []) fun r => Left next s r ks := by
  induction h with
  | stay h => exact Iff.rfl
  | lost h =>
    constructor
    · exact left_unclosed h
    · rintro rfl
      exact .unclosed h
  | on h _ ih => exact (left_block h).trans ih

theorem left_det (h : Left next s t ks) (h' : Left next s t ks') : ks = ks' := by
  induction h generalizing ks' with
  | nil h =>
    rcases left_none h h' with ⟨-, rfl⟩ | ⟨c, b, ks₀, hcb, -, -⟩
    · rfl
    · cases hcb
  | char h _ ih =>
    rcases left_none h h' with ⟨hnil, -⟩ | ⟨c, b, ks₀, hcb, rfl, hb⟩
    · cases hnil
    · cases hcb
      rw [ih hb]
  | block h _ ih => exact ih ((left_block h).1 h')
  | unclosed h => exact (left_unclosed h h').symm

/-! ## Where the first character left stands -/

/-- The byte of `t` at which `o` begins, the byte `cap` if that is earlier. -/
def place (cap : Nat) (t : List Char) (o : Option (List Char)) : Nat :=
  o.elim cap fun r => min cap (pos t r)

def headPos (cap : Nat) (ks : List (Nat × Char)) : Nat := (ks.head?.map Prod.fst).getD cap

theorem place_le (cap : Nat) (t : List Char) (o : Option (List Char)) : place cap t o ≤ cap := by
  cases o with
  | none => exact Nat.le_refl cap
  | some r => exact Nat.min_le_left _ _

theorem pos_lt {a b : List Char} {c : Char} (h : s = a ++ c :: b) : pos s (c :: b) < len s := by
  subst h
  have := c.utf8Size_pos
  simp only [pos, len_append, len_cons]
  omega

theorem left_head (hnext : Shrinks next) {a : List Char} (hs : s = a ++ t) {o : Option (List Char)}
    (h : Hop next t o) (hks : Left next s t ks) : place (len s) s o = headPos (len s) ks := by
  have hleft := (left_hop h).1 hks
  cases o with
  | none =>
    obtain rfl : ks = [] := hleft
    rfl
  | some r =>
    obtain ⟨m, rfl, hr⟩ := h.suffix hnext r rfl
    rcases left_none hr hleft with ⟨rfl, rfl⟩ | ⟨c, b, ks', rfl, rfl, -⟩
    · simp [place, headPos, pos]
    · have hlt : pos s (c :: b) < len s := pos_lt (a := a ++ m) (by rw [hs, List.append_assoc])
      simp [place, headPos, Nat.min_eq_right (Nat.le_of_lt hlt)]

end CutOut
