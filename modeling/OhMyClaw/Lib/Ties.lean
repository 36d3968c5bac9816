import Mathlib.Data.List.Sort

/-!
# The text of a sorted list

The elements of a list are put in order and written one behind the other.  Elements that tie in the order keep
their order in the list, so the text may depend on it.

    flatMap_insertionSort_iff    it does not exactly where what tying elements write commutes
-/

namespace Ties

variable {α β : Type*} {r : α → α → Prop} {f : α → List β}

/-- What commutes with every part commutes with the whole. -/
theorem flatMap_append_comm {t : List β} {l : List α} (h : ∀ a ∈ l, f a ++ t = t ++ f a) :
    l.flatMap f ++ t = t ++ l.flatMap f := by
  induction l with
  | nil => simp
  | cons a l ih =>
    rw [List.forall_mem_cons] at h
    rw [List.flatMap_cons, List.append_assoc, ih h.2, ← List.append_assoc, h.1, List.append_assoc]

/-- Two orders of the same elements write the same, if what tying elements write commutes. -/
theorem flatMap_eq_of_sorted {l l' : List α} (hperm : l.Perm l') (hl : l.Pairwise r) (hl' : l'.Pairwise r)
    (hcomm : ∀ a ∈ l, ∀ b ∈ l, r a b → r b a → f a ++ f b = f b ++ f a) : l.flatMap f = l'.flatMap f := by
  induction l generalizing l' with
  | nil => rw [List.nil_perm.1 hperm]
  | cons a l ih =>
    -- what stands ahead of `a` in the other order ties with it
    obtain ⟨u, v, rfl⟩ := List.append_of_mem (hperm.subset List.mem_cons_self)
    rw [List.pairwise_cons] at hl
    have hrest : l.Perm (u ++ v) := (hperm.trans List.perm_middle).cons_inv
    have hahead (b : α) (hb : b ∈ u) : f b ++ f a = f a ++ f b := by
      have hbl : b ∈ l := hrest.symm.subset (List.mem_append_left v hb)
      have hba : r b a := (List.pairwise_append.1 hl').2.2 b hb a List.mem_cons_self
      exact (hcomm a List.mem_cons_self b (List.mem_cons_of_mem a hbl) (hl.1 b hbl) hba).symm
    have hsorted : (u ++ v).Pairwise r :=
      hl'.sublist (List.Sublist.append_left (List.sublist_cons_self a v) u)
    have hcomm' : ∀ b ∈ l, ∀ c ∈ l, r b c → r c b → f b ++ f c = f c ++ f b := fun b hb c hc =>
      hcomm b (List.mem_cons_of_mem a hb) c (List.mem_cons_of_mem a hc)
    calc (a :: l).flatMap f = f a ++ (u ++ v).flatMap f := by rw [List.flatMap_cons, ih hrest hl.2 hsorted hcomm']
      _ = f a ++ u.flatMap f ++ v.flatMap f := by rw [List.flatMap_append, List.append_assoc]
      _ = u.flatMap f ++ f a ++ v.flatMap f := by rw [flatMap_append_comm hahead]
      _ = (u ++ a :: v).flatMap f := by rw [List.flatMap_append, List.flatMap_cons, List.append_assoc]

variable [DecidableRel r] [IsTrans α r]

/-- Two tying elements are inserted side by side, the later one ahead. -/
theorem orderedInsert_tie {a b : α} (hab : r a b) (hba : r b a) (l : List α) :
    ∃ u v, (l.orderedInsert r b).orderedInsert r a = u ++ a :: b :: v ∧
      (l.orderedInsert r a).orderedInsert r b = u ++ b :: a :: v := by
  induction l with
  | nil => exact ⟨[], [], by simp [hab], by simp [hba]⟩
  | cons c l ih =>
    have hiff : r a c ↔ r b c := ⟨IsTrans.trans b a c hba, IsTrans.trans a b c hab⟩
    by_cases hac : r a c
    · refine ⟨[], c :: l, ?_, ?_⟩
      · simp [List.orderedInsert_cons, hiff.1 hac, hab]
      · simp [List.orderedInsert_cons, hac, hba]
    · obtain ⟨u, v, hu, hv⟩ := ih
      refine ⟨c :: u, v, ?_, ?_⟩
      · simp [List.orderedInsert_cons, hac, hiff.not.1 hac, hu]
      · simp [List.orderedInsert_cons, hac, hiff.not.1 hac, hv]

/-- Sorted, a list writes the same in every order exactly where what tying elements write commutes. -/
theorem flatMap_insertionSort_iff [Std.Total r] (l : List α) :
    (∀ l' : List α, l'.Perm l → (l'.insertionSort r).flatMap f = (l.insertionSort r).flatMap f) ↔
      ∀ a ∈ l, ∀ b ∈ l, r a b → r b a → f a ++ f b = f b ++ f a := by
  constructor
  · intro h a ha b hb hab hba
    obtain ⟨u, v, rfl⟩ := List.append_of_mem ha
    rcases List.mem_cons.1 (List.perm_middle.subset hb) with rfl | hb
    · rfl
    -- the list may as well begin with the two
    · obtain ⟨u', v', hsplit⟩ := List.append_of_mem hb
      have hperm : (a :: b :: (u' ++ v')).Perm (u ++ a :: v) := by
        refine .trans (.cons a ?_) List.perm_middle.symm
        rw [hsplit]
        exact List.perm_middle.symm
      have hone := (h _ hperm).trans (h _ ((List.Perm.swap a b _).trans hperm)).symm
      obtain ⟨s, t, hs, ht⟩ := orderedInsert_tie hab hba ((u' ++ v').insertionSort r)
      rw [List.insertionSort_cons, List.insertionSort_cons, List.insertionSort_cons, List.insertionSort_cons, hs,
        ht] at hone
      simp only [List.flatMap_append, List.flatMap_cons] at hone
      have htwo := List.append_cancel_left hone
      rw [← List.append_assoc, ← List.append_assoc] at htwo
      exact List.append_cancel_right htwo
  · intro hcomm l' hperm
    have hsorted := (List.perm_insertionSort r l').trans (hperm.trans (List.perm_insertionSort r l).symm)
    refine flatMap_eq_of_sorted hsorted (List.pairwise_insertionSort r l') (List.pairwise_insertionSort r l) ?_
    intro a ha b hb
    exact hcomm a (hperm.subset ((List.mem_insertionSort r).1 ha)) b (hperm.subset ((List.mem_insertionSort r).1 hb))

end Ties
