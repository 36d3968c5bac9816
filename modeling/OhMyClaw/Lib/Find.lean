import Mathlib.Data.List.Infix
import Mathlib.Data.List.Basic

/-!
# A pattern in a text

Where a pattern stands first, the pieces of a text between its occurrences, and the text with
the occurrences replaced.  Occurrences are found from the left and do not overlap: behind one the
search goes on at its end.

    pieces_iff        the pieces are the ones the rules `Pieces` give
    replace_iff       so is the text with every occurrence replaced
    count_eq_one      what the search has looked at when it finds one occurrence
-/

namespace Find

variable {α : Type*} {p s a b : List α}

/-! ## The first occurrence -/

/-- No occurrence of `p` in `a ++ b` begins in `a`. -/
def Clear (p a b : List α) : Prop := ∀ u v, a = u ++ v → v ≠ [] → ¬ p <+: v ++ b

theorem clear_nil (p b : List α) : Clear p [] b := by
  intro u v h hv
  exact absurd (List.append_eq_nil_iff.1 h.symm).2 hv

theorem clear_cons {c : α} : Clear p (c :: a) b ↔ ¬ p <+: c :: (a ++ b) ∧ Clear p a b := by
  constructor
  · intro h
    refine ⟨h [] (c :: a) rfl (by simp), fun u v hav hv => ?_⟩
    exact h (c :: u) v (by rw [hav]; rfl) hv
  · rintro ⟨hhead, htail⟩ u v hav hv
    cases u with
    | nil =>
      obtain rfl : c :: a = v := hav
      exact hhead
    | cons d u =>
      obtain ⟨-, rfl⟩ := List.cons.inj hav
      exact htail u v rfl hv

/-- An element the pattern does not hold ends what it stands in. -/
theorem prefix_of_absent {c : α} (h : p <+: a ++ c :: b) (hc : c ∉ p) : p <+: a := by
  rcases List.prefix_or_prefix_of_prefix h (List.prefix_append a (c :: b)) with hpa | ⟨w, rfl⟩
  · exact hpa
  · cases w with
    | nil =>
      rw [List.append_nil]
    | cons d w =>
      obtain ⟨rfl, -⟩ := List.cons_prefix_cons.1 ((List.prefix_append_right_inj a).1 h)
      simp at hc

theorem clear_nil_right (hp : p ≠ []) : Clear p s [] ↔ ¬ p <:+: s := by
  constructor
  · rintro h ⟨u, v, rfl⟩
    refine h u (p ++ v) (List.append_assoc _ _ _) (by simp [hp]) ?_
    rw [List.append_nil]
    exact List.prefix_append p v
  · intro h u v hs hv hp'
    rw [List.append_nil] at hp'
    exact h (hp'.isInfix.trans (hs ▸ (List.suffix_append u v).isInfix))

variable [DecidableEq α]

/-- The text ahead of the first occurrence, and the text from it on. -/
def cutAt (p : List α) : List α → Option (List α × List α)
  | [] => if p = [] then some ([], []) else none
  | c :: s => if p <+: c :: s then some ([], c :: s) else (cutAt p s).map fun r => (c :: r.1, r.2)

theorem cutAt_eq_some (hp : p ≠ []) :
    cutAt p s = some (a, b) ↔ s = a ++ b ∧ p <+: b ∧ Clear p a b := by
  induction s generalizing a with
  | nil =>
    rw [cutAt, if_neg hp]
    refine Iff.intro (fun h => by cases h) ?_
    rintro ⟨hs, hb, -⟩
    rw [(List.append_eq_nil_iff.1 hs.symm).2] at hb
    exact absurd (List.prefix_nil.1 hb) hp
  | cons c s ih =>
    rw [cutAt]
    split
    · next hc =>
      constructor
      · intro h
        obtain ⟨rfl, rfl⟩ := Prod.mk.inj (Option.some.inj h)
        exact ⟨rfl, hc, clear_nil p _⟩
      · rintro ⟨hs, hb, hclear⟩
        cases a with
        | nil => rw [show c :: s = b from hs]
        | cons d a =>
          rw [hs] at hc
          exact absurd hc (clear_cons.1 hclear).1
    · next hc =>
      cases a with
      | nil =>
        constructor
        · intro h
          obtain ⟨r, -, hr⟩ := Option.map_eq_some_iff.1 h
          cases (Prod.mk.inj hr).1
        · rintro ⟨hs, hb, -⟩
          exact absurd (show p <+: c :: s from hs ▸ hb) hc
      | cons d a =>
        rw [Option.map_eq_some_iff]
        constructor
        · rintro ⟨⟨a', b'⟩, hcut, hr⟩
          obtain ⟨hda, rfl⟩ := Prod.mk.inj hr
          obtain ⟨rfl, rfl⟩ := List.cons.inj hda
          obtain ⟨rfl, hb, hclear⟩ := ih.1 hcut
          exact ⟨rfl, hb, clear_cons.2 ⟨hc, hclear⟩⟩
        · rintro ⟨hs, hb, hclear⟩
          obtain ⟨rfl, htail⟩ := List.cons.inj hs
          exact ⟨(a, b), ih.2 ⟨htail, hb, (clear_cons.1 hclear).2⟩, rfl⟩

theorem cutAt_eq_none (hp : p ≠ []) : cutAt p s = none ↔ ¬ p <:+: s := by
  induction s with
  | nil => simp [cutAt, hp]
  | cons c s ih =>
    rw [cutAt, List.infix_cons_iff]
    split
    · next hc => simp [hc]
    · next hc => simp [ih, hc]

/-- What a text with an occurrence looks like around the first. -/
theorem exists_first (hp : p ≠ []) (h : p <:+: s) : ∃ a b, s = a ++ (p ++ b) ∧ Clear p a (p ++ b) := by
  cases hcut : cutAt p s with
  | none => exact absurd h ((cutAt_eq_none hp).1 hcut)
  | some r =>
    obtain ⟨hs, ⟨b, hb⟩, hclear⟩ := (cutAt_eq_some hp).1 hcut
    refine ⟨r.1, b, ?_, ?_⟩
    · rw [hb]
      exact hs
    · rw [hb]
      exact hclear

/-! ## All occurrences -/

/-- The pieces of a text; `skip` elements of an occurrence are still to be passed. -/
def piecesFrom (p : List α) : Nat → List α → List (List α)
  | _, [] => [[]]
  | skip + 1, _ :: s => piecesFrom p skip s
  | 0, c :: s =>
    if p <+: c :: s then [] :: piecesFrom p (p.length - 1) s
    else (piecesFrom p 0 s).modifyHead (c :: ·)

/-- The pieces between the occurrences of a pattern that is not empty. -/
def pieces (p s : List α) : List (List α) := piecesFrom p 0 s

/-- How many occurrences the search finds. -/
def count (p s : List α) : Nat := (pieces p s).length - 1

/-- The text with every occurrence replaced. -/
def replace (p q s : List α) : List α := q.intercalate (pieces p s)

/-- The text with the first occurrence replaced. -/
def replaceFirst (p q s : List α) : List α :=
  match cutAt p s with
  | some (a, b) => a ++ q ++ b.drop p.length
  | none => s

/-- The rules of a search from the left. -/
inductive Pieces (p : List α) : List α → List (List α) → Prop where
  | last {s : List α} (h : ¬ p <:+: s) : Pieces p s [s]
  | occurrence {a b : List α} {ps : List (List α)} (h : Clear p a (p ++ b)) (hb : Pieces p b ps) :
      Pieces p (a ++ (p ++ b)) (a :: ps)

theorem piecesFrom_skip (p u s : List α) : piecesFrom p u.length (u ++ s) = piecesFrom p 0 s := by
  induction u with
  | nil => rfl
  | cons c u ih => exact ih

theorem piecesFrom_ne_nil (p : List α) (skip : Nat) (s : List α) : piecesFrom p skip s ≠ [] := by
  induction s generalizing skip with
  | nil => cases skip <;> simp [piecesFrom]
  | cons c s ih =>
    cases skip with
    | succ skip => exact ih skip
    | zero =>
      rw [piecesFrom]
      split
      · simp
      · intro h
        have := congrArg List.length h
        rw [List.length_modifyHead] at this
        exact ih 0 (List.eq_nil_of_length_eq_zero this)

theorem pieces_ne_nil (p s : List α) : pieces p s ≠ [] := piecesFrom_ne_nil p 0 s

/-- A stretch in which no occurrence begins belongs to the piece it begins. -/
theorem pieces_clear (h : Clear p a b) : pieces p (a ++ b) = (pieces p b).modifyHead (a ++ ·) := by
  induction a with
  | nil => simp [List.modifyHead]; split <;> simp_all
  | cons c a ih =>
    obtain ⟨hhead, htail⟩ := clear_cons.1 h
    show piecesFrom p 0 (c :: (a ++ b)) = _
    rw [piecesFrom, if_neg hhead]
    show (pieces p (a ++ b)).modifyHead (c :: ·) = _
    rw [ih htail, List.modifyHead_modifyHead]
    rfl

theorem pieces_occurrence (hp : p ≠ []) (b : List α) : pieces p (p ++ b) = [] :: pieces p b := by
  obtain ⟨c, u, rfl⟩ := List.exists_cons_of_ne_nil hp
  have hc : c :: u <+: c :: (u ++ b) := List.prefix_append (c :: u) b
  show piecesFrom (c :: u) 0 (c :: (u ++ b)) = _
  rw [piecesFrom, if_pos hc]
  exact congrArg ([] :: ·) (piecesFrom_skip (c :: u) u b)

theorem pieces_of_absent (hp : p ≠ []) (h : ¬ p <:+: s) : pieces p s = [s] := by
  have := pieces_clear (b := []) ((clear_nil_right hp).2 h)
  rw [List.append_nil] at this
  rw [this]
  simp [pieces, piecesFrom]

theorem pieces_of_occurrence (hp : p ≠ []) (h : Clear p a (p ++ b)) :
    pieces p (a ++ (p ++ b)) = a :: pieces p b := by
  rw [pieces_clear h, pieces_occurrence hp]
  simp

theorem Pieces.eq (hp : p ≠ []) {ps : List (List α)} (h : Pieces p s ps) : ps = pieces p s := by
  induction h with
  | last h => exact (pieces_of_absent hp h).symm
  | occurrence h _ ih => rw [pieces_of_occurrence hp h, ih]

theorem exists_pieces (hp : p ≠ []) (s : List α) : ∃ ps, Pieces p s ps := by
  induction hn : s.length using Nat.strong_induction_on generalizing s with
  | _ n ih =>
    by_cases h : p <:+: s
    · obtain ⟨a, b, rfl, hclear⟩ := exists_first hp h
      have hlt : b.length < n := by
        have := List.length_pos_iff.2 hp
        rw [← hn, List.length_append, List.length_append]
        omega
      obtain ⟨ps, hps⟩ := ih b.length hlt b rfl
      exact ⟨a :: ps, .occurrence hclear hps⟩
    · exact ⟨[s], .last h⟩

theorem pieces_iff (hp : p ≠ []) {ps : List (List α)} : pieces p s = ps ↔ Pieces p s ps := by
  constructor
  · rintro rfl
    obtain ⟨ps, hps⟩ := exists_pieces hp s
    exact hps.eq hp ▸ hps
  · intro h
    exact (h.eq hp).symm

theorem pieces_spec (hp : p ≠ []) (s : List α) : Pieces p s (pieces p s) := (pieces_iff hp).1 rfl

theorem intercalate_pieces (hp : p ≠ []) (s : List α) : p.intercalate (pieces p s) = s := by
  have h := pieces_spec hp s
  revert h
  generalize pieces p s = ps
  intro h
  induction h with
  | last h => simp
  | @occurrence a b ps h hb ih =>
    have hne : ps ≠ [] := hb.eq hp ▸ pieces_ne_nil p b
    rw [List.intercalate_cons_of_ne_nil hne, ih, List.append_assoc]

/-- The rules of a replacement of every occurrence. -/
inductive Replaced (p q : List α) : List α → List α → Prop where
  | last {s : List α} (h : ¬ p <:+: s) : Replaced p q s s
  | occurrence {a b r : List α} (h : Clear p a (p ++ b)) (hb : Replaced p q b r) :
      Replaced p q (a ++ (p ++ b)) (a ++ (q ++ r))

theorem replace_of_absent (hp : p ≠ []) (q : List α) (h : ¬ p <:+: s) : replace p q s = s := by
  rw [replace, pieces_of_absent hp h]
  simp

theorem replace_of_occurrence (hp : p ≠ []) (q : List α) (h : Clear p a (p ++ b)) :
    replace p q (a ++ (p ++ b)) = a ++ (q ++ replace p q b) := by
  rw [replace, pieces_of_occurrence hp h, List.intercalate_cons_of_ne_nil (pieces_ne_nil p b), List.append_assoc]
  rfl

theorem replace_prefix (hp : p ≠ []) (q b : List α) : replace p q (p ++ b) = q ++ replace p q b :=
  replace_of_occurrence hp q (clear_nil p _)

/-- A stretch in which no occurrence begins stays. -/
theorem replace_clear (q : List α) (h : Clear p a b) : replace p q (a ++ b) = a ++ replace p q b := by
  rw [replace, pieces_clear h, replace]
  obtain ⟨u, us, hus⟩ := List.exists_cons_of_ne_nil (pieces_ne_nil p b)
  rw [hus, List.modifyHead_cons]
  cases us with
  | nil => simp
  | cons v vs => simp [List.intercalate_cons_of_ne_nil]

theorem replace_iff (hp : p ≠ []) {q r : List α} : replace p q s = r ↔ Replaced p q s r := by
  have hspec : ∀ {s ps}, Pieces p s ps → Replaced p q s (replace p q s) := by
    intro s ps h
    induction h with
    | last h =>
      rw [replace_of_absent hp q h]
      exact .last h
    | occurrence h _ ih =>
      rw [replace_of_occurrence hp q h]
      exact .occurrence h ih
  constructor
  · rintro rfl
    exact hspec (pieces_spec hp s)
  · intro h
    induction h with
    | last h => exact replace_of_absent hp q h
    | occurrence h _ ih => rw [replace_of_occurrence hp q h, ih]

theorem replaceFirst_of_occurrence (hp : p ≠ []) (q : List α) (h : Clear p a (p ++ b)) :
    replaceFirst p q (a ++ (p ++ b)) = a ++ (q ++ b) := by
  have hcut : cutAt p (a ++ (p ++ b)) = some (a, p ++ b) :=
    (cutAt_eq_some hp).2 ⟨rfl, List.prefix_append p b, h⟩
  rw [replaceFirst, hcut]
  simp

theorem count_pos (hp : p ≠ []) : 0 < count p s ↔ p <:+: s := by
  constructor
  · intro h
    by_contra hno
    rw [count, pieces_of_absent hp hno] at h
    simp at h
  · intro h
    obtain ⟨a, b, rfl, hclear⟩ := exists_first hp h
    rw [count, pieces_of_occurrence hp hclear]
    have := List.length_pos_iff.2 (pieces_ne_nil p b)
    simp only [List.length_cons]
    omega

/-- The search finds one occurrence when there is none behind the end of the first. -/
theorem count_of_occurrence (hp : p ≠ []) (h : Clear p a (p ++ b)) :
    count p (a ++ (p ++ b)) = count p b + 1 := by
  have := List.length_pos_iff.2 (pieces_ne_nil p b)
  rw [count, pieces_of_occurrence hp h, count, List.length_cons]
  omega

/-- The search finds one occurrence: the first, and none behind its end. -/
theorem count_eq_one (hp : p ≠ []) :
    count p s = 1 ↔ ∃ a b, s = a ++ (p ++ b) ∧ Clear p a (p ++ b) ∧ ¬ p <:+: b := by
  constructor
  · intro h
    have hpos : 0 < count p s := by omega
    obtain ⟨a, b, rfl, hclear⟩ := exists_first hp ((count_pos hp).1 hpos)
    refine ⟨a, b, rfl, hclear, fun hb => ?_⟩
    have := (count_pos hp).2 hb
    rw [count_of_occurrence hp hclear] at h
    omega
  · rintro ⟨a, b, rfl, hclear, hb⟩
    have := mt (count_pos hp).1 hb
    rw [count_of_occurrence hp hclear]
    omega

/-- With one occurrence, the first is every one. -/
theorem replaceFirst_eq_replace (hp : p ≠ []) (q : List α) (h : count p s = 1) :
    replaceFirst p q s = replace p q s := by
  obtain ⟨a, b, rfl, hclear, hb⟩ := (count_eq_one hp).1 h
  rw [replaceFirst_of_occurrence hp q hclear, replace_of_occurrence hp q hclear,
    replace_of_absent hp q hb]

/-- The only occurrence the search finds is overlapped by another. -/
def Overlapped (p s : List α) : Prop :=
  ∃ a b u v, s = a ++ (p ++ b) ∧ Clear p a (p ++ b) ∧ ¬ p <:+: b ∧
    p ++ b = u ++ (p ++ v) ∧ u ≠ [] ∧ u.length < p.length

omit [DecidableEq α] in
/-- Another occurrence that the search does not find begins inside the one it finds. -/
theorem overlapped_of_ne (hclear : Clear p a (p ++ b)) (hb : ¬ p <:+: b) {a' b' : List α}
    (h : a ++ (p ++ b) = a' ++ (p ++ b')) (hne : a' ≠ a) : Overlapped p (a ++ (p ++ b)) := by
  rcases List.append_eq_append_iff.1 h with ⟨u, rfl, hu⟩ | ⟨v, rfl, hv⟩
  · have hune : u ≠ [] := by
      rintro rfl
      exact hne (List.append_nil a)
    refine ⟨a, b, u, b', rfl, hclear, hb, hu, hune, ?_⟩
    by_contra hle
    -- it would begin behind the end of the first
    rcases List.append_eq_append_iff.1 hu with ⟨w, -, hw⟩ | ⟨w, hpw, hw⟩
    · exact hb ⟨w, b', by rw [hw, List.append_assoc]⟩
    · have hlen := congrArg List.length hpw
      rw [List.length_append] at hlen
      obtain rfl : w = [] := List.eq_nil_of_length_eq_zero (by omega)
      exact hb ⟨[], b', hw⟩
  · have hvne : v ≠ [] := by
      rintro rfl
      exact hne (List.append_nil a').symm
    exact absurd (hv ▸ List.prefix_append p b') (hclear a' v rfl hvne)

omit [DecidableEq α] in
theorem Overlapped.ne_nil (h : Overlapped p s) : p ≠ [] := by
  obtain ⟨_, _, _, _, -, -, -, -, -, hlen⟩ := h
  rintro rfl
  exact absurd hlen (Nat.not_lt_zero _)

theorem Overlapped.count_eq_one (hp : p ≠ []) (h : Overlapped p s) : count p s = 1 := by
  obtain ⟨a, b, -, -, hs, hclear, hb, -⟩ := h
  exact (Find.count_eq_one hp).2 ⟨a, b, hs, hclear, hb⟩

omit [DecidableEq α] in
/-- Then there are two places. -/
theorem Overlapped.exists_ne (h : Overlapped p s) :
    ∃ a b a' b', s = a ++ (p ++ b) ∧ s = a' ++ (p ++ b') ∧ a ≠ a' := by
  obtain ⟨a, b, u, v, hs, -, -, hu, hune, -⟩ := h
  refine ⟨a, b, a ++ u, v, hs, by rw [hs, hu, List.append_assoc], fun hsame => hune ?_⟩
  simpa using hsame

/-! ## Trimming -/

/-- The text without the repetitions of `p` at its start; `skip` elements of one are still to be
passed. -/
def trimFrom (p : List α) : Nat → List α → List α
  | _, [] => []
  | skip + 1, _ :: s => trimFrom p skip s
  | 0, c :: s => if p <+: c :: s then trimFrom p (p.length - 1) s else c :: s

/-- The text without the repetitions of a pattern that is not empty at its start. -/
def trimStartMatches (p s : List α) : List α := trimFrom p 0 s

theorem trimFrom_skip (p u s : List α) : trimFrom p u.length (u ++ s) = trimFrom p 0 s := by
  induction u with
  | nil => rfl
  | cons c u ih => exact ih

theorem trimStartMatches_append (hp : p ≠ []) (s : List α) :
    trimStartMatches p (p ++ s) = trimStartMatches p s := by
  obtain ⟨c, u, rfl⟩ := List.exists_cons_of_ne_nil hp
  have hc : c :: u <+: c :: (u ++ s) := List.prefix_append (c :: u) s
  show trimFrom (c :: u) 0 (c :: (u ++ s)) = _
  rw [trimFrom, if_pos hc]
  exact trimFrom_skip (c :: u) u s

theorem trimStartMatches_of_not_prefix (h : ¬ p <+: s) : trimStartMatches p s = s := by
  cases s with
  | nil => rfl
  | cons c s => exact if_neg h

theorem trimFrom_suffix (p : List α) (skip : Nat) (s : List α) : trimFrom p skip s <:+ s := by
  induction s generalizing skip with
  | nil => cases skip <;> exact List.suffix_rfl
  | cons c s ih =>
    cases skip with
    | succ skip => exact (ih skip).trans (List.suffix_cons c s)
    | zero =>
      rw [trimFrom]
      split
      · exact (ih _).trans (List.suffix_cons c s)
      · exact List.suffix_rfl

theorem trimStartMatches_suffix (p s : List α) : trimStartMatches p s <:+ s := trimFrom_suffix p 0 s

end Find
