import Mathlib.Data.List.Infix

/-!
# Lists joined by a separator

A number of fields with a separator between them.  What is joined determines the fields exactly where no
field holds the separator.

    eq_of_intercalate     fields without separators come apart in no other way
    exists_other          fields with one do
-/

namespace Joined

variable {α : Type*} [DecidableEq α] {sep : α} {fs gs : List (List α)}

/-- There is a separator between two fields, and no other where the fields hold none. -/
theorem count_intercalate (sep : α) (f : List α) (fs : List (List α)) :
    fs.length ≤ ([sep].intercalate (f :: fs)).count sep ∧
      (([sep].intercalate (f :: fs)).count sep = fs.length ↔ ∀ e ∈ f :: fs, sep ∉ e) := by
  induction fs generalizing f with
  | nil => simp [List.count_eq_zero]
  | cons g fs ih =>
    obtain ⟨hle, hiff⟩ := ih g
    have hcount : ([sep].intercalate (f :: g :: fs)).count sep =
        f.count sep + 1 + ([sep].intercalate (g :: fs)).count sep := by
      rw [List.intercalate_cons_cons, List.count_append, List.count_append, List.count_singleton_self]
    rw [hcount, List.forall_mem_cons, ← hiff, ← List.count_eq_zero, List.length_cons]
    exact ⟨by omega, by omega⟩

/-- Fields without separators come apart in no other way. -/
theorem eq_of_intercalate (hlen : gs.length = fs.length) (hfs : ∀ f ∈ fs, sep ∉ f)
    (h : [sep].intercalate gs = [sep].intercalate fs) : gs = fs := by
  cases fs with
  | nil => exact List.length_eq_zero_iff.1 hlen
  | cons f fs =>
    cases gs with
    | nil => cases hlen
    | cons g gs =>
      have hcount := (count_intercalate sep f fs).2.2 hfs
      rw [← h, ← Nat.succ.inj hlen] at hcount
      have hgs := (count_intercalate sep g gs).2.1 hcount
      rw [← List.splitOn_intercalate sep hgs (List.cons_ne_nil _ _), h,
        List.splitOn_intercalate sep hfs (List.cons_ne_nil _ _)]

/-- A separator in a field can be taken for the one behind or ahead of the field. -/
theorem exists_other (htwo : 2 ≤ fs.length) (hsep : ∃ f ∈ fs, sep ∈ f) :
    ∃ gs, gs.length = fs.length ∧ gs ≠ fs ∧ [sep].intercalate gs = [sep].intercalate fs := by
  induction fs with
  | nil => cases htwo
  | cons f fs ih =>
    cases fs with
    | nil => simp at htwo
    | cons g fs =>
      by_cases hf : sep ∈ f
      · obtain ⟨x, y, rfl⟩ := List.append_of_mem hf
        refine ⟨x :: (y ++ sep :: g) :: fs, rfl, ?_, ?_⟩
        · intro heq
          have := congrArg List.length (List.cons.inj heq).1
          simp at this
        · cases fs <;> simp [List.intercalate_cons_cons]
      · obtain ⟨e, he, hmem⟩ := hsep
        have he : e ∈ g :: fs := (List.mem_cons.1 he).resolve_left fun heq => hf (heq ▸ hmem)
        cases fs with
        | nil =>
          rw [List.mem_singleton.1 he] at hmem
          obtain ⟨x, y, rfl⟩ := List.append_of_mem hmem
          refine ⟨[f ++ sep :: x, y], rfl, ?_, by simp [List.intercalate_cons_cons]⟩
          intro heq
          have := congrArg List.length (List.cons.inj heq).1
          simp at this
        | cons g' fs =>
          obtain ⟨gs, hlen, hne, hjoin⟩ := ih (by simp) ⟨e, he, hmem⟩
          cases gs with
          | nil => cases hlen
          | cons h gs =>
            refine ⟨f :: h :: gs, congrArg Nat.succ hlen, ?_, ?_⟩
            · exact fun heq => hne (List.cons.inj heq).2
            · rw [List.intercalate_cons_cons, hjoin, ← List.intercalate_cons_cons]

end Joined
