import Mathlib.Data.List.Infix

/-!
# Words that stand on their own

A word occurs in a text on its own where none of its letters has a letter outside the word beside it.

    standsIn_iff         the places to look at
    find?_forall_iff     when the first entry that passes a coarse test passes a fine one
-/

namespace Standing

variable {α : Type*} (letter : α → Bool) (t s : List α)

/-- The word stands in the text, and no letter of it next to another letter. -/
def StandsIn : Prop :=
  ∃ u v, s = u ++ t ++ v ∧ (u.getLast?.any letter && t.head?.any letter) = false ∧
    (t.getLast?.any letter && v.head?.any letter) = false

theorem StandsIn.infix {letter : α → Bool} {t s : List α} (h : StandsIn letter t s) : t <:+: s := by
  obtain ⟨u, v, rfl, -, -⟩ := h
  exact List.infix_append u t v

theorem standsIn_iff : StandsIn letter t s ↔ ∃ i < s.length + 1, t <+: s.drop i ∧
    ((s.take i).getLast?.any letter && t.head?.any letter) = false ∧
    (t.getLast?.any letter && (s.drop (i + t.length)).head?.any letter) = false := by
  constructor
  · rintro ⟨u, v, rfl, hu, hv⟩
    refine ⟨u.length, ?_, ?_, ?_, ?_⟩
    · simp only [List.length_append]
      omega
    · simp
    · simpa using hu
    · simpa using hv
  · rintro ⟨i, -, ⟨v, hv⟩, hhead, hlast⟩
    refine ⟨s.take i, v, ?_, hhead, ?_⟩
    · rw [List.append_assoc, hv, List.take_append_drop]
    · rwa [← List.drop_drop, ← hv, List.drop_left] at hlast

instance [DecidableEq α] : Decidable (StandsIn letter t s) := decidable_of_iff _ (standsIn_iff letter t s).symm

/-- The first entry that passes a test passes a finer one exactly where each entry that passes the first test
only comes behind one that passes the finer. -/
theorem find?_forall_iff {p : α → Bool} {q : α → Prop} {xs : List α} (hqp : ∀ x ∈ xs, q x → p x = true) :
    (∀ x, xs.find? p = some x → q x) ↔
      ∀ pre x post, xs = pre ++ x :: post → p x = true → ¬ q x → ∃ y ∈ pre, q y := by
  constructor
  · rintro h pre x post rfl hp hq
    cases hpre : pre.find? p with
    | some y => exact ⟨y, List.mem_of_find?_eq_some hpre, h y (by rw [List.find?_append, hpre, Option.some_or])⟩
    | none => exact absurd (h x (by rw [List.find?_append, hpre, Option.none_or, List.find?_cons_of_pos hp])) hq
  · intro h x hx
    obtain ⟨hp, pre, post, rfl, hpre⟩ := List.find?_eq_some_iff_append.1 hx
    by_contra hq
    obtain ⟨y, hy, hqy⟩ := h pre x post rfl hp hq
    have hpy := hqp y (List.mem_append_left _ hy) hqy
    have hnot := hpre y hy
    rw [hpy] at hnot
    cases hnot

end Standing
