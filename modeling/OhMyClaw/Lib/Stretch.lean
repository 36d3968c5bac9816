import Mathlib.Data.List.DropRight
import Mathlib.Data.List.Infix

/-!
# Lists with some items repeated

In a marked list, `Stretches k m s` says that `s` is the list with every marked item put at least
`k` further times, and any number of times more.

    infix_of_stretches    what is found where all marked items are doubled is found in every stretch
    prefix_of_stretches   the same at the front

The list that is looked for must not hold a marked item twice in a row.
-/

namespace Stretch

variable {α β : Type*}

inductive Stretches (k : Nat) : List (α × Bool) → List α → Prop where
  | nil : Stretches k [] []
  | cons {x : α} {marked : Bool} {n : Nat} {m : List (α × Bool)} {s : List α}
      (hn : if marked then k ≤ n else n = 0) (h : Stretches k m s) :
      Stretches k ((x, marked) :: m) (List.replicate (n + 1) x ++ s)

variable {k : Nat} {m m' : List (α × Bool)} {s s' t : List α}

theorem Stretches.append (h : Stretches k m s) (h' : Stretches k m' s') :
    Stretches k (m ++ m') (s ++ s') := by
  induction h with
  | nil => exact h'
  | cons hn _ ih =>
    rw [List.append_assoc]
    exact .cons hn ih

theorem Stretches.reverse (h : Stretches k m s) : Stretches k m.reverse s.reverse := by
  induction h with
  | nil => exact .nil
  | @cons x marked n m s hn _ ih =>
    have hlast : Stretches k [(x, marked)] (List.replicate (n + 1) x) := by
      rw [← List.append_nil (List.replicate (n + 1) x)]
      exact .cons hn .nil
    rw [List.reverse_cons, List.reverse_append, List.reverse_replicate]
    exact ih.append hlast

theorem Stretches.dropWhile (h : Stretches k m s) (p : α → Bool) :
    Stretches k (m.dropWhile fun u => p u.1) (s.dropWhile p) := by
  induction h with
  | nil => exact .nil
  | @cons x marked n m s hn h ih =>
    by_cases hx : p x = true
    · have hall : (List.replicate (n + 1) x).dropWhile p = [] := by
        rw [List.dropWhile_eq_nil_iff]
        intro y hy
        rw [List.eq_of_mem_replicate hy]
        exact hx
      have hmarks : ((x, marked) :: m).dropWhile (fun u => p u.1) = m.dropWhile fun u => p u.1 := by
        simp [hx]
      rw [hmarks, List.dropWhile_append, hall]
      exact ih
    · have hmarks : ((x, marked) :: m).dropWhile (fun u => p u.1) = (x, marked) :: m := by
        simp [hx]
      rw [hmarks, List.replicate_succ, List.cons_append,
        List.dropWhile_cons_of_neg hx, ← List.cons_append, ← List.replicate_succ]
      exact .cons hn h

theorem Stretches.rdropWhile (h : Stretches k m s) (p : α → Bool) :
    Stretches k (m.rdropWhile fun u => p u.1) (s.rdropWhile p) :=
  (h.reverse.dropWhile p).reverse

/-- Every marked item twice. -/
def double (m : List (α × Bool)) : List α := m.flatMap fun u => if u.2 then [u.1, u.1] else [u.1]

theorem stretches_double (m : List (α × Bool)) : Stretches 1 m (double m) := by
  induction m with
  | nil => exact .nil
  | cons u m ih =>
    obtain ⟨x, marked⟩ := u
    cases marked with
    | true => exact .cons (n := 1) (by simp) ih
    | false => exact .cons (n := 0) (by simp) ih

theorem Stretches.zero (h : Stretches k m s) : Stretches 0 m s := by
  induction h with
  | nil => exact .nil
  | @cons x marked n m s hn _ ih =>
    refine .cons ?_ ih
    cases marked with
    | true => exact Nat.zero_le n
    | false => exact hn

/-! ## What is found -/

/-- A list without `b` twice in a row ends at the first of two or begins at the second. -/
theorem infix_cut {p a d : List β} {b : β} (hp : ¬ [b, b] <:+: p) (h : p <:+: a ++ b :: b :: d) :
    p <:+: a ++ [b] ∨ p <:+: b :: d := by
  have hsplit : a ++ b :: b :: d = (a ++ [b]) ++ b :: d := by simp
  rw [hsplit, List.infix_append_iff_ne_nil] at h
  rcases h with h | h | ⟨l, r, hl, hr, rfl, hleft, hright⟩
  · exact Or.inl h
  · exact Or.inr h
  · refine absurd ?_ hp
    obtain ⟨r', rfl⟩ : ∃ r', r = b :: r' := by
      obtain ⟨x, r', rfl⟩ := List.exists_cons_of_ne_nil hr
      exact ⟨r', by rw [(List.cons_prefix_cons.1 hright).1]⟩
    obtain ⟨l', rfl⟩ : ∃ l', l = l' ++ [b] := by
      rcases List.eq_nil_or_concat l with rfl | ⟨l', x, rfl⟩
      · exact absurd rfl hl
      · rw [List.concat_eq_append] at hleft ⊢
        rcases List.suffix_concat_iff.1 hleft with hnil | ⟨t, ht, -⟩
        · simp at hnil
        · exact ⟨t, ht⟩
    exact ⟨l', r', by simp⟩

theorem prefix_cut {p a d : List β} {b : β} (hp : ¬ [b, b] <:+: p) (h : p <+: a ++ b :: b :: d) :
    p <+: a ++ [b] := by
  have hsplit : a ++ b :: b :: d = (a ++ [b]) ++ b :: d := by simp
  rw [hsplit] at h
  rcases List.prefix_or_prefix_of_prefix h (List.prefix_append (a ++ [b]) (b :: d)) with hle | ⟨r, rfl⟩
  · exact hle
  · cases r with
    | nil => simp
    | cons x r =>
      obtain ⟨rfl, -⟩ := List.cons_prefix_cons.1 ((List.prefix_append_right_inj _).1 h)
      exact absurd ⟨a, r, by simp⟩ hp

section

variable {f : α → List β} {p : List β}

theorem flatMap_replicate {x : α} {y : β} (h : f x = [y]) (n : Nat) :
    (List.replicate n x).flatMap f = List.replicate n y := by
  induction n with
  | zero => rfl
  | succ n ih => rw [List.replicate_succ, List.flatMap_cons, h, ih, List.replicate_succ, List.singleton_append]

theorem infix_squeeze {y : β} (hp : ¬ [y, y] <:+: p) {n : Nat} {rest : List β}
    (h : p <:+: List.replicate (n + 1) y ++ rest) : p <:+: y :: rest := by
  induction n with
  | zero => simpa using h
  | succ n ih =>
    have htwo : List.replicate (n + 1 + 1) y ++ rest = [] ++ y :: y :: (List.replicate n y ++ rest) := by
      simp [List.replicate_succ]
    rw [htwo] at h
    rcases infix_cut hp h with hone | hrest
    · exact hone.trans ⟨[], rest, by simp⟩
    · exact ih (by simpa [List.replicate_succ] using hrest)

/-- What is found where all marked items are doubled is found in every stretch. -/
theorem infix_of_stretches (hf : ∀ u ∈ m, u.2 = true → ∃ y, f u.1 = [y] ∧ ¬ [y, y] <:+: p)
    (ht : Stretches 1 m t) (hs : Stretches 0 m s) (front : List β) (h : p <:+: front ++ t.flatMap f) :
    p <:+: front ++ s.flatMap f := by
  induction ht generalizing s front with
  | nil =>
    cases hs
    exact h
  | @cons x marked i m t hi ht ih =>
    cases hs with
    | @cons _ _ n _ s hn hs =>
      have hrest := fun u hu => hf u (List.mem_cons_of_mem _ hu)
      cases marked with
      | false =>
        obtain rfl : i = 0 := hi
        obtain rfl : n = 0 := hn
        have hone (u : List α) :
            front ++ (List.replicate 1 x ++ u).flatMap f = (front ++ f x) ++ u.flatMap f := by simp
        rw [hone] at h ⊢
        exact ih hrest hs _ h
      | true =>
        obtain ⟨y, hy, hp⟩ := hf (x, true) List.mem_cons_self rfl
        obtain ⟨j, rfl⟩ : ∃ j, i = j + 1 := ⟨i - 1, (Nat.sub_add_cancel hi).symm⟩
        rw [List.flatMap_append, flatMap_replicate hy] at h ⊢
        have htwo : front ++ (List.replicate (j + 1 + 1) y ++ t.flatMap f) =
            front ++ y :: y :: (List.replicate j y ++ t.flatMap f) := by simp [List.replicate_succ]
        rw [htwo] at h
        -- the list that is looked for ends at the first of the doubled items or begins at the last
        rcases infix_cut hp h with hfront | hback
        · exact hfront.trans ⟨[], List.replicate n y ++ s.flatMap f, by simp [List.replicate_succ]⟩
        · have hlast : p <:+: [y] ++ t.flatMap f :=
            infix_squeeze hp (by simpa [List.replicate_succ] using hback)
          exact (ih hrest hs [y] hlast).trans
            ⟨front ++ List.replicate n y, [], by simp [List.replicate_succ']⟩

/-- The same at the front. -/
theorem prefix_of_stretches (hf : ∀ u ∈ m, u.2 = true → ∃ y, f u.1 = [y] ∧ ¬ [y, y] <:+: p)
    (ht : Stretches 1 m t) (hs : Stretches 0 m s) (front : List β) (h : p <+: front ++ t.flatMap f) :
    p <+: front ++ s.flatMap f := by
  induction ht generalizing s front with
  | nil =>
    cases hs
    exact h
  | @cons x marked i m t hi ht ih =>
    cases hs with
    | @cons _ _ n _ s hn hs =>
      have hrest := fun u hu => hf u (List.mem_cons_of_mem _ hu)
      cases marked with
      | false =>
        obtain rfl : i = 0 := hi
        obtain rfl : n = 0 := hn
        have hone (u : List α) :
            front ++ (List.replicate 1 x ++ u).flatMap f = (front ++ f x) ++ u.flatMap f := by simp
        rw [hone] at h ⊢
        exact ih hrest hs _ h
      | true =>
        obtain ⟨y, hy, hp⟩ := hf (x, true) List.mem_cons_self rfl
        obtain ⟨j, rfl⟩ : ∃ j, i = j + 1 := ⟨i - 1, (Nat.sub_add_cancel hi).symm⟩
        rw [List.flatMap_append, flatMap_replicate hy] at h ⊢
        have htwo : front ++ (List.replicate (j + 1 + 1) y ++ t.flatMap f) =
            front ++ y :: y :: (List.replicate j y ++ t.flatMap f) := by simp [List.replicate_succ]
        rw [htwo] at h
        exact (prefix_cut hp h).trans ⟨List.replicate n y ++ s.flatMap f, by simp [List.replicate_succ]⟩

end

end Stretch
