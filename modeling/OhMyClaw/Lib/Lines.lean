import Mathlib.Data.List.Basic

/-!
# Splitting a stream at separators

`split sep xs` gives the segments of `xs` that a separator ends, without the separators, and
the unfinished segment behind the last one.  `split_segment` and `split_rest` are the two
turns of the usual loop: cut off everything up to the first separator, stop when there is
none.  `split_append` makes it incremental: what is left over from one piece is put before
the next.
-/

namespace Lines

variable {α : Type*} (sep : α → Bool)

def split : List α → List (List α) × List α
  | [] => ([], [])
  | x :: xs =>
    let r := split xs
    if sep x then ([] :: r.1, r.2)
    else
      match r.1 with
      | [] => ([], x :: r.2)
      | l :: ls => ((x :: l) :: ls, r.2)

variable {sep}

theorem split_cons_sep {x : α} (h : sep x = true) (xs : List α) :
    split sep (x :: xs) = ([] :: (split sep xs).1, (split sep xs).2) := by
  simp [split, h]

/-- A piece without separator lengthens the first segment, or the rest if there is none. -/
theorem split_prepend {xs : List α} (h : ∀ x ∈ xs, sep x = false) (ys : List α) :
    split sep (xs ++ ys) =
      match (split sep ys).1 with
      | [] => ([], xs ++ (split sep ys).2)
      | l :: ls => ((xs ++ l) :: ls, (split sep ys).2) := by
  induction xs with
  | nil =>
    simp only [List.nil_append]
    split
    · next h' => exact Prod.ext h' rfl
    · next l ls h' => exact Prod.ext h' rfl
  | cons x xs ih =>
    have hx : sep x = false := h x List.mem_cons_self
    have hxs := ih fun y hy => h y (List.mem_cons_of_mem _ hy)
    simp only [List.cons_append, split, hx, Bool.false_eq_true, if_false, hxs]
    cases (split sep ys).1 with
    | nil => rfl
    | cons l ls => rfl

theorem split_rest {xs : List α} (h : ∀ x ∈ xs, sep x = false) : split sep xs = ([], xs) := by
  have := split_prepend h []
  simpa [split] using this

theorem split_segment {l : List α} (h : ∀ x ∈ l, sep x = false) {s : α} (hs : sep s = true)
    (rest : List α) : split sep (l ++ s :: rest) = (l :: (split sep rest).1, (split sep rest).2) := by
  rw [split_prepend h, split_cons_sep hs]
  simp

theorem split_append (xs ys : List α) :
    split sep (xs ++ ys) =
      ((split sep xs).1 ++ (split sep ((split sep xs).2 ++ ys)).1,
        (split sep ((split sep xs).2 ++ ys)).2) := by
  induction xs with
  | nil => simp [split]
  | cons x xs ih =>
    by_cases hx : sep x = true
    · simp only [List.cons_append, split_cons_sep hx, ih]
    · simp only [Bool.not_eq_true] at hx
      cases hls : (split sep xs).1 with
      | nil =>
        simp only [hls, List.nil_append] at ih
        simp only [List.cons_append, split, hx, Bool.false_eq_true, if_false, hls, ih,
          List.nil_append]
      | cons l ls =>
        simp only [hls, List.cons_append] at ih
        simp only [List.cons_append, split, hx, Bool.false_eq_true, if_false, hls, ih]

/-- The first finished segment, and what the others come from. -/
theorem split_eq_cons {xs l : List α} {ls : List (List α)} (h : (split sep xs).1 = l :: ls) :
    ∃ s b, xs = l ++ s :: b ∧ (∀ x ∈ l, sep x = false) ∧ sep s = true ∧ ls = (split sep b).1 := by
  induction xs generalizing l ls with
  | nil => simp [split] at h
  | cons x xs ih =>
    by_cases hx : sep x = true
    · rw [split_cons_sep hx] at h
      obtain ⟨rfl, rfl⟩ := List.cons_eq_cons.1 h
      exact ⟨x, xs, rfl, by simp, hx, rfl⟩
    · simp only [Bool.not_eq_true] at hx
      cases hls : (split sep xs).1 with
      | nil => simp [split, hx, hls] at h
      | cons l' ls' =>
        obtain ⟨s, b, rfl, hl', hs, rfl⟩ := ih hls
        simp only [split, hx, Bool.false_eq_true, if_false, hls, List.cons.injEq] at h
        obtain ⟨rfl, rfl⟩ := h
        refine ⟨s, b, rfl, ?_, hs, rfl⟩
        intro y hy
        rcases List.mem_cons.1 hy with rfl | hy
        · exact hx
        · exact hl' y hy

/-- The unfinished rest holds no separator. -/
theorem split_rest_sep (xs : List α) : ∀ x ∈ (split sep xs).2, sep x = false := by
  induction xs with
  | nil => simp [split]
  | cons x xs ih =>
    by_cases hx : sep x = true
    · rw [split_cons_sep hx]
      exact ih
    · simp only [Bool.not_eq_true] at hx
      simp only [split, hx, Bool.false_eq_true, if_false]
      cases (split sep xs).1 with
      | nil =>
        intro y hy
        rcases List.mem_cons.1 hy with rfl | hy
        · exact hx
        · exact ih y hy
      | cons l ls => exact ih

/-- The position right behind `a` starts a segment. -/
def AtStart (sep : α → Bool) (a : List α) : Prop := a = [] ∨ ∃ a' s, a = a' ++ [s] ∧ sep s = true

theorem split_rest_of_atStart {a : List α} (h : AtStart sep a) : (split sep a).2 = [] := by
  rcases h with rfl | ⟨a', s, rfl, hs⟩
  · rfl
  · rw [split_append, split_segment (split_rest_sep a') hs]
    rfl

/-- The finished segments are the stretches without separator from a segment start to the
next separator. -/
theorem mem_split {xs l : List α} :
    l ∈ (split sep xs).1 ↔
      ∃ a s b, xs = a ++ l ++ s :: b ∧ AtStart sep a ∧ (∀ x ∈ l, sep x = false) ∧ sep s = true := by
  constructor
  · intro h
    induction hsegs : (split sep xs).1 generalizing xs with
    | nil => simp [hsegs] at h
    | cons l₀ ls ih =>
      obtain ⟨s₀, b₀, rfl, hl₀, hs₀, rfl⟩ := split_eq_cons hsegs
      rw [hsegs] at h
      rcases List.mem_cons.1 h with rfl | h
      · exact ⟨[], s₀, b₀, rfl, Or.inl rfl, hl₀, hs₀⟩
      · obtain ⟨a, s, b, rfl, ha, hl, hs⟩ := ih h rfl
        refine ⟨l₀ ++ s₀ :: a, s, b, by simp, ?_, hl, hs⟩
        rcases ha with rfl | ⟨a', s', rfl, hs'⟩
        · exact Or.inr ⟨l₀, s₀, rfl, hs₀⟩
        · exact Or.inr ⟨l₀ ++ s₀ :: a', s', by simp, hs'⟩
  · rintro ⟨a, s, b, rfl, ha, hl, hs⟩
    rw [List.append_assoc, split_append, split_rest_of_atStart ha, List.nil_append,
      split_segment hl hs]
    simp

end Lines
