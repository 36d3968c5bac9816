import Mathlib.Logic.Function.Basic
import OhMyClaw.Lib.Find

/-!
# Replacing the codes of an escaped text

An escaped text writes some elements as codes, which all begin with the same element `lead`.  When
the codes are replaced one after the other, a code that is replaced while `lead` itself still is
escaped stands for an element and nothing else (`replace_lead`); one that is replaced when `lead`
stands for itself may also have been in the text (`replace_code`).
-/

namespace Escape

open Find

variable {α : Type*} [DecidableEq α] {lead x : α} {p : List α} {f : α → List α}

/-- `f` writes `x` as the code `p`, and every other element as itself or as a code that is not at
the head of it. -/
structure Code (lead : α) (f : α → List α) (x : α) (p : List α) : Prop where
  self : f x = p
  shape : ∃ body, p = lead :: body ∧ lead ∉ body
  other : ∀ c, c ≠ x → f c = [c] ∨ ∃ e, f c = lead :: e ∧ lead ∉ e ∧ ∀ r, ¬ p <+: lead :: (e ++ r)

omit [DecidableEq α] in
theorem Code.ne_nil (h : Code lead f x p) : p ≠ [] := by
  obtain ⟨body, rfl, -⟩ := h.shape
  simp

omit [DecidableEq α] in
/-- No code begins where `lead` is not. -/
theorem clear_of_absent {body e b : List α} (h : lead ∉ e) : Clear (lead :: body) e b := by
  induction e with
  | nil => exact clear_nil _ _
  | cons c e ih =>
    simp only [List.mem_cons, not_or] at h
    exact clear_cons.2 ⟨fun hc => h.1 (List.cons_prefix_cons.1 hc).1, ih h.2⟩

/-- Replacing the code of `lead` itself. -/
theorem replace_lead (h : Code lead f lead p) (t : List α) :
    replace p [lead] (t.flatMap f) = t.flatMap (Function.update f lead [lead]) := by
  obtain ⟨body, hp, -⟩ := h.shape
  induction t with
  | nil => exact replace_of_absent h.ne_nil _ (by simp [h.ne_nil])
  | cons c t ih =>
    rw [List.flatMap_cons, List.flatMap_cons, ← ih]
    by_cases hc : c = lead
    · subst hc
      rw [h.self, Function.update_self, replace_prefix h.ne_nil]
    · rw [Function.update_of_ne hc]
      rcases h.other c hc with hself | ⟨e, he, hlead, hno⟩
      · rw [hself, hp]
        exact replace_clear _ (clear_of_absent (by simp [Ne.symm hc]))
      · rw [he]
        refine replace_clear _ (clear_cons.2 ⟨hno _, ?_⟩)
        rw [hp]
        exact clear_of_absent hlead

omit [DecidableEq α] in
/-- What holds no `lead` and is at the head of an escaped text is at the head of the text. -/
theorem prefix_of_flatMap (hf : ∀ c, f c = [c] ∨ ∃ e, f c = lead :: e) {q t : List α} (hq : lead ∉ q)
    (h : q <+: t.flatMap f) : q <+: t := by
  induction q generalizing t with
  | nil => exact List.nil_prefix
  | cons d q ih =>
    simp only [List.mem_cons, not_or] at hq
    cases t with
    | nil => simp at h
    | cons c t =>
      rw [List.flatMap_cons] at h
      rcases hf c with hself | ⟨e, he⟩
      · rw [hself, List.singleton_append, List.cons_prefix_cons] at h
        exact List.cons_prefix_cons.2 ⟨h.1, ih hq.2 h.2⟩
      · rw [he, List.cons_append, List.cons_prefix_cons] at h
        exact absurd h.1.symm hq.1

/-- Replacing the code of another element, when `lead` and the elements of the code stand for
themselves: the text comes out with the code replaced in it too. -/
theorem replace_code (h : Code lead f x p) (hplain : ∀ c ∈ p, f c = [c]) (hx : x ≠ lead) (t : List α) :
    replace p [x] (t.flatMap f) = (replace p [x] t).flatMap (Function.update f x [x]) := by
  obtain ⟨body, hp, hbody⟩ := h.shape
  have hshape (c : α) : f c = [c] ∨ ∃ e, f c = lead :: e := by
    by_cases hc : c = x
    · exact Or.inr ⟨body, by rw [hc, h.self, hp]⟩
    · exact (h.other c hc).imp_right fun ⟨e, he, _⟩ => ⟨e, he⟩
  have hliteral : p.flatMap f = p :=
    (List.flatMap_congr hplain).trans (by simp)
  induction hn : t.length using Nat.strong_induction_on generalizing t with
  | _ n ih =>
    by_cases hpt : p <+: t
    · obtain ⟨r, rfl⟩ := hpt
      have hlt : r.length < n := by
        have := List.length_pos_iff.2 h.ne_nil
        rw [← hn, List.length_append]
        omega
      rw [List.flatMap_append, hliteral, replace_prefix h.ne_nil, replace_prefix h.ne_nil, ih _ hlt r rfl,
        List.flatMap_append, List.flatMap_singleton, Function.update_self]
    · cases t with
      | nil =>
        have hnil : replace p [x] ([] : List α) = [] := replace_of_absent h.ne_nil _ (by simp [h.ne_nil])
        rw [List.flatMap_nil, hnil, List.flatMap_nil]
      | cons c r =>
        have hkeep : replace p [x] (c :: r) = c :: replace p [x] r :=
          replace_clear (a := [c]) _ (clear_cons.2 ⟨hpt, clear_nil p r⟩)
        rw [hkeep, List.flatMap_cons, List.flatMap_cons, ← ih r.length (by rw [← hn]; simp) r rfl]
        by_cases hc : c = x
        · subst hc
          rw [h.self, Function.update_self, replace_prefix h.ne_nil]
        · rw [Function.update_of_ne hc]
          rcases h.other c hc with hself | ⟨e, he, hlead, hno⟩
          · rw [hself]
            refine replace_clear _ (clear_cons.2 ⟨fun hpre => hpt ?_, clear_nil p _⟩)
            rw [hp, List.nil_append, List.cons_prefix_cons] at hpre
            rw [hp, List.cons_prefix_cons]
            exact ⟨hpre.1, prefix_of_flatMap hshape hbody hpre.2⟩
          · rw [he]
            refine replace_clear _ (clear_cons.2 ⟨hno _, ?_⟩)
            rw [hp]
            exact clear_of_absent hlead

end Escape
