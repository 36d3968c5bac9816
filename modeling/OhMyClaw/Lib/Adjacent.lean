import Mathlib.Data.List.Induction

/-!
# Neighbours in a list

    adjacent p xs       the pairs of direct neighbours that `p` holds of, in order

A list can be taken apart at the front (`adjacent_cons_cons`), grown at the end
(`adjacent_snoc_snoc`) and cut where `p` holds of no pair (`adjacent_append`).
-/

universe u v

variable {α : Type u} {β : Type v} {p : α → α → Bool}

/-- The pairs of neighbours that `p` holds of. -/
def adjacent (p : α → α → Bool) (xs : List α) : List (α × α) :=
  (xs.zip xs.tail).filter fun q => p q.1 q.2

@[simp] theorem adjacent_singleton (x : α) : adjacent p [x] = [] := rfl

theorem adjacent_cons_cons (x y : α) (xs : List α) :
    adjacent p (x :: y :: xs) = (if p x y = true then [(x, y)] else []) ++ adjacent p (y :: xs) := by
  simp only [adjacent, List.tail_cons, List.zip_cons_cons, List.filter_cons]
  split <;> rfl

/-- An element that makes no pair with the next one. -/
theorem adjacent_cons {x : α} {xs : List α} (h : ∀ y, xs.head? = some y → p x y = false) :
    adjacent p (x :: xs) = adjacent p xs := by
  cases xs with
  | nil => rfl
  | cons y xs =>
    rw [adjacent_cons_cons, h y rfl]
    rfl

/-- No pair reaches over the seam. -/
theorem adjacent_append (xs : List α) {ys : List α}
    (h : ∀ x ∈ xs, ∀ y, ys.head? = some y → p x y = false) :
    adjacent p (xs ++ ys) = adjacent p xs ++ adjacent p ys := by
  induction xs with
  | nil => rfl
  | cons x xs ih =>
    have hrest := ih fun x' hx' => h x' (List.mem_cons_of_mem _ hx')
    cases xs with
    | nil => exact adjacent_cons (h x List.mem_cons_self)
    | cons x' xs =>
      rw [List.cons_append, List.cons_append, adjacent_cons_cons, adjacent_cons_cons, ← List.cons_append, hrest,
        List.append_assoc]

theorem adjacent_snoc_snoc (xs : List α) (x y : α) :
    adjacent p (xs ++ [x, y]) = adjacent p (xs ++ [x]) ++ if p x y = true then [(x, y)] else [] := by
  induction xs with
  | nil =>
    rw [List.nil_append, List.nil_append, adjacent_cons_cons]
    simp
  | cons z xs ih =>
    cases xs with
    | nil =>
      simp only [List.cons_append, List.nil_append] at ih ⊢
      rw [adjacent_cons_cons, adjacent_cons_cons z x [], ih, List.append_assoc]
    | cons z' xs =>
      simp only [List.cons_append] at ih ⊢
      rw [adjacent_cons_cons, adjacent_cons_cons, ih, List.append_assoc]

/-- An element that no other makes a pair with. -/
theorem adjacent_snoc (xs : List α) {y : α} (h : ∀ x, p x y = false) :
    adjacent p (xs ++ [y]) = adjacent p xs := by
  cases xs using List.reverseRec with
  | nil => rfl
  | append_singleton xs x =>
    rw [List.append_assoc, List.singleton_append, adjacent_snoc_snoc, h x]
    simp

theorem adjacent_map {q : β → β → Bool} (f : α → β) (h : ∀ x y, q (f x) (f y) = p x y) (xs : List α) :
    adjacent q (xs.map f) = (adjacent p xs).map fun r => (f r.1, f r.2) := by
  induction xs with
  | nil => rfl
  | cons x xs ih =>
    cases xs with
    | nil => rfl
    | cons y xs =>
      simp only [List.map_cons] at ih ⊢
      rw [adjacent_cons_cons, adjacent_cons_cons, h, ih, List.map_append]
      split <;> rfl
