import Mathlib.Data.List.Infix

/-!
# Windows of a list

    xs.windows n      the stretches of `n` neighbouring elements, in order

The windows of a list are the windows of every list that contains it (`windows_infix`), so a
list can be looked for by its windows.
-/

universe u v

namespace List

variable {α : Type u} {β : Type v}

/-- `slice::windows`; `n` is positive. -/
def windows (n : Nat) : List α → List (List α)
  | [] => []
  | x :: xs => if n ≤ xs.length + 1 then (x :: xs).take n :: windows n xs else []

theorem mem_windows {n : Nat} (hn : 0 < n) {w xs : List α} :
    w ∈ windows n xs ↔ w.length = n ∧ w <:+: xs := by
  induction xs with
  | nil =>
    simp only [windows, not_mem_nil, infix_nil, false_iff, not_and]
    rintro hlen rfl
    simp at hlen
    omega
  | cons x xs ih =>
    unfold windows
    split
    · next hle =>
      rw [mem_cons, ih, infix_cons_iff]
      constructor
      · rintro (rfl | ⟨hlen, hinfix⟩)
        · refine ⟨?_, Or.inl <| take_prefix _ _⟩
          rw [length_take, length_cons]
          omega
        · exact ⟨hlen, Or.inr hinfix⟩
      · rintro ⟨hlen, hprefix | hinfix⟩
        · left
          rw [prefix_iff_eq_take.1 hprefix, hlen]
        · exact Or.inr ⟨hlen, hinfix⟩
    · next hlt =>
      simp only [not_mem_nil, false_iff, not_and]
      intro hlen hinfix
      have hle := hinfix.length_le
      rw [length_cons] at hle
      omega

theorem length_windows {n : Nat} (hn : 0 < n) (xs : List α) : (windows n xs).length = xs.length + 1 - n := by
  induction xs with
  | nil =>
    simp only [windows, length_nil]
    omega
  | cons x xs ih =>
    unfold windows
    split
    · rw [length_cons, ih, length_cons]
      omega
    · rw [length_nil, length_cons]
      omega

/-- Windows that begin at different elements differ. -/
theorem nodup_windows {n : Nat} (hn : 0 < n) {xs : List α} (h : xs.Nodup) : (windows n xs).Nodup := by
  induction xs with
  | nil => exact nodup_nil
  | cons x xs ih =>
    obtain ⟨hx, hxs⟩ := nodup_cons.1 h
    unfold windows
    split
    · refine nodup_cons.2 ⟨fun hmem => hx ?_, ih hxs⟩
      have hfirst : x ∈ (x :: xs).take n := by
        obtain ⟨k, rfl⟩ := Nat.exists_eq_succ_of_ne_zero (Nat.ne_of_gt hn)
        exact mem_cons_self
      exact ((mem_windows hn).1 hmem).2.subset hfirst
    · exact nodup_nil

/-- What is contained brings its windows along. -/
theorem windows_infix {n : Nat} (hn : 0 < n) {xs ys : List α} (h : xs <:+: ys) {w : List α}
    (hw : w ∈ windows n xs) : w ∈ windows n ys := by
  rw [mem_windows hn] at hw ⊢
  exact ⟨hw.1, hw.2.trans h⟩

theorem windows_map (n : Nat) (f : α → β) (xs : List α) :
    windows n (xs.map f) = (windows n xs).map (map f) := by
  induction xs with
  | nil => rfl
  | cons x xs ih =>
    rw [map_cons, windows, windows, length_map]
    split
    · rw [ih, ← map_cons, ← map_take]
      rfl
    · rfl

end List
