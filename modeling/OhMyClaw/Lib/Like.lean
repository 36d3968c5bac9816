import Mathlib.Data.List.Infix

/-!
# The SQL operator LIKE

In a pattern `%` stands for any text and `_` for any one character; letters are compared without
regard to their case in ASCII, and only there.

    like_contains      a pattern `%t%` looks for `t`
-/

namespace Sql

/-- `text LIKE pattern`. -/
def like : List Char → List Char → Bool
  | [], text => text.isEmpty
  | p :: pattern, text =>
    if p = '%' then text.tails.any (like pattern ·)
    else
      match text with
      | [] => false
      | c :: text => (p = '_' || p.toLower = c.toLower) && like pattern text

/-- The same text up to the case of ASCII letters. -/
def sameCase (s t : List Char) : Prop := s.map Char.toLower = t.map Char.toLower

/-- A character that stands for itself. -/
def Plain (c : Char) : Prop := c ≠ '%' ∧ c ≠ '_'

theorem like_rest (text : List Char) : like ['%'] text = true := by
  simp only [like, if_true, List.any_eq_true]
  exact ⟨[], (List.mem_tails _ _).2 List.nil_suffix, rfl⟩

/-- A plain text with anything behind it. -/
theorem like_prefix {t text : List Char} (h : ∀ c ∈ t, Plain c) :
    like (t ++ ['%']) text = true ↔ ∃ part, part <+: text ∧ sameCase part t := by
  induction t generalizing text with
  | nil =>
    rw [List.nil_append, like_rest]
    simp only [true_iff]
    exact ⟨[], List.nil_prefix, rfl⟩
  | cons p t ih =>
    obtain ⟨hany, hone⟩ := h p List.mem_cons_self
    cases text with
    | nil =>
      simp only [List.cons_append, like, if_neg hany, Bool.false_eq_true, false_iff, not_exists, not_and]
      rintro part hpart hsame
      rw [List.prefix_nil.1 hpart] at hsame
      simp [sameCase] at hsame
    | cons c text =>
      have hrest := @ih text fun c hc => h c (List.mem_cons_of_mem _ hc)
      simp only [List.cons_append, like, if_neg hany, hone, decide_false, Bool.false_or, Bool.and_eq_true,
        decide_eq_true_eq, hrest]
      constructor
      · rintro ⟨hc, part, hpart, hsame⟩
        refine ⟨c :: part, List.cons_prefix_cons.2 ⟨rfl, hpart⟩, ?_⟩
        unfold sameCase at hsame ⊢
        rw [List.map_cons, List.map_cons, hc, hsame]
      · rintro ⟨part, hpart, hsame⟩
        cases part with
        | nil => simp [sameCase] at hsame
        | cons d part =>
          obtain ⟨rfl, hrest⟩ := List.cons_prefix_cons.1 hpart
          obtain ⟨hd, hsame'⟩ := List.cons.inj hsame
          exact ⟨hd.symm, part, hrest, hsame'⟩

/-- The pattern `%t%` matches the texts that hold `t`. -/
theorem like_contains {t text : List Char} (h : ∀ c ∈ t, Plain c) :
    like ('%' :: t ++ ['%']) text = true ↔ ∃ part, part <:+: text ∧ sameCase part t := by
  simp only [List.cons_append, like, if_true, List.any_eq_true, List.mem_tails, like_prefix h]
  constructor
  · rintro ⟨rest, hrest, part, hpart, hsame⟩
    exact ⟨part, hpart.isInfix.trans hrest.isInfix, hsame⟩
  · rintro ⟨part, hpart, hsame⟩
    obtain ⟨rest, hprefix, hsuffix⟩ := List.infix_iff_prefix_suffix.1 hpart
    exact ⟨rest, hsuffix, part, hprefix, hsame⟩

end Sql
