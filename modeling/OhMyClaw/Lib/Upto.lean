import Mathlib.Data.List.Basic

/-!
# A list up to its first item of a kind

`xs.upTo p` is `xs` up to the first item that satisfies `p`, that item included: what a loop
reads that stops behind such an item.
-/

namespace List

variable {α β : Type*} {p q : α → Bool}

def upTo (p : α → Bool) : List α → List α
  | [] => []
  | x :: xs => if p x then [x] else x :: upTo p xs

@[simp] theorem upTo_nil : upTo p [] = [] := rfl

theorem upTo_cons_pos {x : α} (h : p x = true) (xs : List α) : upTo p (x :: xs) = [x] := by
  simp [upTo, h]

theorem upTo_cons_neg {x : α} (h : p x = false) (xs : List α) :
    upTo p (x :: xs) = x :: upTo p xs := by
  simp [upTo, h]

theorem length_upTo_le (p : α → Bool) (xs : List α) : (upTo p xs).length ≤ xs.length := by
  induction xs with
  | nil => exact Nat.le_refl 0
  | cons x xs ih =>
    cases hx : p x with
    | true => simp [upTo_cons_pos hx]
    | false => simpa [upTo_cons_neg hx] using ih

theorem upTo_of_not_any {xs : List α} (h : xs.any p = false) : upTo p xs = xs := by
  induction xs with
  | nil => rfl
  | cons x xs ih =>
    rw [any_cons, Bool.or_eq_false_iff] at h
    rw [upTo_cons_neg h.1, ih h.2]

theorem upTo_append_of_not_any {xs : List α} (h : xs.any p = false) (ys : List α) :
    upTo p (xs ++ ys) = xs ++ upTo p ys := by
  induction xs with
  | nil => rfl
  | cons x xs ih =>
    rw [any_cons, Bool.or_eq_false_iff] at h
    rw [cons_append, upTo_cons_neg h.1, ih h.2, cons_append]

theorem upTo_append_of_any {xs : List α} (h : xs.any p = true) (ys : List α) :
    upTo p (xs ++ ys) = upTo p xs := by
  induction xs with
  | nil => simp at h
  | cons x xs ih =>
    cases hx : p x with
    | true => rw [cons_append, upTo_cons_pos hx, upTo_cons_pos hx]
    | false =>
      rw [any_cons, hx, Bool.false_or] at h
      rw [cons_append, upTo_cons_neg hx, upTo_cons_neg hx, ih h]

/-- Cutting again at items of the kind changes nothing. -/
theorem upTo_upTo {xs : List α} (h : ∀ x ∈ xs, q x = p x) : upTo q (upTo p xs) = upTo p xs := by
  induction xs with
  | nil => rfl
  | cons x xs ih =>
    have hx := h x mem_cons_self
    cases hp : p x with
    | true => rw [upTo_cons_pos hp, upTo_cons_pos (hx.trans hp)]
    | false =>
      rw [upTo_cons_neg hp, upTo_cons_neg (hx.trans hp), ih fun y hy => h y (mem_cons_of_mem x hy)]

/-- The item that makes the cut is still there. -/
theorem exists_mem_upTo {xs : List α} (h : ∃ x ∈ xs, p x = true) : ∃ x ∈ upTo p xs, p x = true := by
  induction xs with
  | nil => simp at h
  | cons y ys ih =>
    cases hy : p y with
    | true => exact ⟨y, by simp [upTo_cons_pos hy], hy⟩
    | false =>
      have hrest : ∃ x ∈ ys, p x = true := by simpa [hy] using h
      obtain ⟨x, hx, hpx⟩ := ih hrest
      exact ⟨x, by simp [upTo_cons_neg hy, hx], hpx⟩

/-- What is left out before the cut may as well be left out first. -/
theorem filter_upTo (h : ∀ x, p x = true → q x = true) (xs : List α) :
    (upTo p xs).filter q = upTo p (xs.filter q) := by
  induction xs with
  | nil => rfl
  | cons x xs ih =>
    cases hx : p x with
    | true => rw [upTo_cons_pos hx, filter_cons_of_pos (h x hx), filter_cons_of_pos (h x hx),
        upTo_cons_pos hx, filter_nil]
    | false =>
      rw [upTo_cons_neg hx]
      cases hq : q x with
      | true => rw [filter_cons_of_pos hq, filter_cons_of_pos hq, upTo_cons_neg hx, ih]
      | false => rw [filter_cons_of_neg (by simp [hq]), filter_cons_of_neg (by simp [hq]), ih]

/-- The cut costs none of the items `q` wants exactly if none of them follows an item of the kind. -/
theorem filter_upTo_eq_filter_iff (h : ∀ x, p x = true → q x = true) {xs : List α} :
    (upTo p xs).filter q = xs.filter q ↔
      ∀ before x behind, xs = before ++ x :: behind → p x = true → ∀ y ∈ behind, ¬ q y = true := by
  induction xs with
  | nil => simp
  | cons y ys ih =>
    cases hy : p y with
    | true =>
      rw [upTo_cons_pos hy, filter_cons_of_pos (h y hy), filter_cons_of_pos (h y hy), filter_nil,
        List.cons_inj_right]
      constructor
      · intro hnil before x behind hxs _ z hz
        have hall := filter_eq_nil_iff.1 hnil.symm
        cases before with
        | nil =>
          obtain ⟨-, rfl⟩ := List.cons.inj hxs
          exact hall z hz
        | cons b bs =>
          obtain ⟨-, rfl⟩ := List.cons.inj hxs
          exact hall z (mem_append_right bs (mem_cons_of_mem x hz))
      · intro hall
        exact (filter_eq_nil_iff.2 (hall [] y ys rfl hy)).symm
    | false =>
      have hrest : (∀ before x behind, ys = before ++ x :: behind → p x = true →
            ∀ z ∈ behind, ¬ q z = true) ↔
          ∀ before x behind, y :: ys = before ++ x :: behind → p x = true →
            ∀ z ∈ behind, ¬ q z = true := by
        constructor
        · intro hall before x behind hxs hx
          cases before with
          | nil =>
            obtain ⟨rfl, -⟩ := List.cons.inj hxs
            simp [hy] at hx
          | cons b bs => exact hall bs x behind (List.cons.inj hxs).2 hx
        · intro hall before x behind hxs hx
          exact hall (y :: before) x behind (by rw [hxs, cons_append]) hx
      rw [upTo_cons_neg hy, ← hrest, ← ih]
      cases hq : q y with
      | true => rw [filter_cons_of_pos hq, filter_cons_of_pos hq, List.cons_inj_right]
      | false => rw [filter_cons_of_neg (by simp [hq]), filter_cons_of_neg (by simp [hq])]

end List
