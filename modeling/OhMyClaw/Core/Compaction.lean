import Mathlib.Algebra.Ring.Int.Defs
import Mathlib.Data.List.Sort

/-!
# The compaction plan

`planCompaction` decides which messages of a request are cut short and which are left
out, given their token counts.  Old tool results are pruned first; if that does not
bring the projected total down to the trigger, the oldest messages are dropped, a tool
call together with its result.

    planCompaction_pairClosed    a call and the result right behind it are dropped together
    planCompaction_movable       the recent messages are neither pruned nor dropped
-/

namespace OhMyClaw

/-- What the plan knows of one message. -/
structure MsgMeta where
  index : Nat
  tokens : Int
  isToolResult : Bool
  isToolDispatch : Bool
deriving DecidableEq, Repr

structure CompactPlan where
  pruneToolResults : List Nat
  drop : List Nat
  /-- The interval `[start, end)` a summary should replace. -/
  summarize : Option (Nat × Nat)
  pruneToTokens : Int
deriving DecidableEq, Repr

def CompactPlan.isNoop (plan : CompactPlan) : Bool :=
  plan.pruneToolResults.isEmpty && plan.drop.isEmpty && plan.summarize.isNone

/-- `trigger` is the water level the source derives as `budget * trigger_ratio` in floating
point and truncates to an integer; here it is any integer. -/
structure CompactCfg where
  trigger : Int
  pruneToolToTokens : Int
  keepRecent : Nat
  enableSummary : Bool
deriving DecidableEq, Repr

/-- The defaults of the source; its default budget and ratio give the trigger 6400. -/
def CompactCfg.default : CompactCfg :=
  { trigger := 6400, pruneToolToTokens := 200, keepRecent := 6, enableSummary := false }

namespace Compaction

/-- The running total and the indices chosen so far. -/
structure Chosen where
  projected : Int
  indices : List Nat
deriving DecidableEq, Repr

/-! ## Step 1: prune old tool results -/

def pruneStep (cfg : CompactCfg) (m : MsgMeta) (st : Chosen) : Chosen :=
  if m.isToolResult && cfg.pruneToolToTokens < m.tokens then
    { projected := st.projected - (m.tokens - cfg.pruneToolToTokens)
      indices := st.indices ++ [m.index] }
  else st

def pruneLoop (cfg : CompactCfg) : List MsgMeta → Chosen → Chosen
  | [], st => st
  | m :: ms, st => if st.projected ≤ cfg.trigger then st else pruneLoop cfg ms (pruneStep cfg m st)

/-! ## Step 2: drop the oldest messages -/

/-- The size a message counts with once the pruning of step 1 is decided. -/
def effective (cfg : CompactCfg) (prune : List Nat) (m : MsgMeta) : Int :=
  if prune.contains m.index then cfg.pruneToolToTokens else m.tokens

/-- The position of the other half of a pair: a call looks behind, a result looks ahead. -/
def matePos (metas : List MsgMeta) (i : Nat) (m : MsgMeta) : Option Nat :=
  if m.isToolDispatch then
    if (metas[i + 1]?).any (·.isToolResult) then some (i + 1) else none
  else if m.isToolResult then
    if 1 ≤ i && (metas[i - 1]?).any (·.isToolDispatch) then some (i - 1) else none
  else none

/-- Drop the message at position `i` with its mate, unless the mate is one of the recent
messages that always stay. -/
def dropStep (cfg : CompactCfg) (metas : List MsgMeta) (movableEnd : Nat) (prune : List Nat)
    (m : MsgMeta) (i : Nat) (st : Chosen) : Chosen :=
  if st.indices.contains m.index then st
  else if (matePos metas i m).any (movableEnd ≤ ·) then st
  else
    let st' : Chosen :=
      { projected := st.projected - effective cfg prune m, indices := st.indices ++ [m.index] }
    match (matePos metas i m).bind (metas[·]?) with
    | none => st'
    | some mate =>
      if st'.indices.contains mate.index then st'
      else { projected := st'.projected - effective cfg prune mate
             indices := st'.indices ++ [mate.index] }

def dropLoop (cfg : CompactCfg) (metas : List MsgMeta) (movableEnd : Nat) (prune : List Nat) :
    List (MsgMeta × Nat) → Chosen → Chosen
  | [], st => st
  | (m, i) :: rest, st =>
    if st.projected ≤ cfg.trigger then st
    else dropLoop cfg metas movableEnd prune rest (dropStep cfg metas movableEnd prune m i st)

end Compaction

open Compaction

/-- The plan for messages given oldest first. -/
def planCompaction (metas : List MsgMeta) (cfg : CompactCfg) : CompactPlan :=
  let total := (metas.map (·.tokens)).sum
  let plan : CompactPlan :=
    { pruneToolResults := [], drop := [], summarize := none, pruneToTokens := cfg.pruneToolToTokens }
  let movableEnd := metas.length - cfg.keepRecent
  if total ≤ cfg.trigger then plan
  else if movableEnd = 0 then plan
  else
    let pruned := pruneLoop cfg (metas.take movableEnd) { projected := total, indices := [] }
    let dropped :=
      if cfg.trigger < pruned.projected then
        dropLoop cfg metas movableEnd pruned.indices (metas.take movableEnd).zipIdx
          { projected := pruned.projected, indices := [] }
      else { projected := pruned.projected, indices := [] }
    let drop := dropped.indices.insertionSort (· ≤ ·)
    let summarize :=
      match cfg.enableSummary, drop.min?, drop.max? with
      | true, some lo, some hi => some (lo, hi + 1)
      | _, _, _ => none
    { plan with pruneToolResults := pruned.indices, drop, summarize }

namespace Compaction

/-! ## Calls and their results -/

/-- Positions `i` and `i + 1` hold a call and the result right behind it. -/
def PairAt (metas : List MsgMeta) (i : Nat) : Prop :=
  ∃ a b, metas[i]? = some a ∧ metas[i + 1]? = some b ∧
    a.isToolDispatch = true ∧ b.isToolResult = true

/-- Of every pair, either both halves are among the indices or neither is. -/
def PairClosed (metas : List MsgMeta) (drop : List Nat) : Prop :=
  ∀ i, PairAt metas i → (i ∈ drop ↔ i + 1 ∈ drop)

/-- Metas as the driver builds them: numbered by position, and no message is both a call
and a result. -/
structure WellFormed (metas : List MsgMeta) : Prop where
  index_eq : ∀ (i : Nat) (m : MsgMeta), metas[i]? = some m → m.index = i
  exclusive : ∀ m ∈ metas, m.isToolDispatch = true → m.isToolResult = false

theorem pairClosed_nil (metas : List MsgMeta) : PairClosed metas [] := by
  intro i _
  simp

/-- No position is the result of one pair and the call of another. -/
theorem WellFormed.not_pairAt_succ {metas : List MsgMeta} (hw : WellFormed metas) {i : Nat}
    (h : PairAt metas i) : ¬ PairAt metas (i + 1) := by
  rintro ⟨a', _, ha', _, hd, _⟩
  obtain ⟨_, b, _, hb, _, hr⟩ := h
  obtain rfl : a' = b := by simpa [ha'] using hb
  have := hw.exclusive a' (List.mem_of_getElem? ha') hd
  simp [hr] at this

theorem matePos_dispatch {metas : List MsgMeta} {i : Nat} {m : MsgMeta} (hm : metas[i]? = some m)
    (h : PairAt metas i) : matePos metas i m = some (i + 1) := by
  obtain ⟨a, b, ha, hb, hd, hr⟩ := h
  obtain rfl : m = a := by simpa [hm] using ha
  simp [matePos, hd, hb, hr]

theorem matePos_result {metas : List MsgMeta} (hw : WellFormed metas) {i : Nat} {m : MsgMeta}
    (hm : metas[i + 1]? = some m) (h : PairAt metas i) : matePos metas (i + 1) m = some i := by
  have hnd : m.isToolDispatch = false := by
    cases hd : m.isToolDispatch with
    | false => rfl
    | true =>
      obtain ⟨_, b, _, hb, _, hr⟩ := h
      obtain rfl : m = b := by simpa [hm] using hb
      have := hw.exclusive m (List.mem_of_getElem? hm) hd
      simp [hr] at this
  obtain ⟨a, b, ha, hb, hd, hr⟩ := h
  obtain rfl : m = b := by simpa [hm] using hb
  simp [matePos, hnd, hr, ha, hd]

/-- The mate of a message is the other half of a pair it belongs to. -/
theorem pairAt_of_matePos {metas : List MsgMeta} {i j : Nat} {m : MsgMeta}
    (hm : metas[i]? = some m) (h : matePos metas i m = some j) :
    (j = i + 1 ∧ PairAt metas i) ∨ (i = j + 1 ∧ PairAt metas j) := by
  unfold matePos at h
  split at h
  · next hd =>
    cases hb : metas[i + 1]? with
    | none => simp [hb] at h
    | some b =>
      simp only [hb, Option.any_some, Option.ite_none_right_eq_some, Option.some.injEq] at h
      exact Or.inl ⟨h.2.symm, m, b, hm, hb, hd, h.1⟩
  · split at h
    · next hr =>
      cases ha : metas[i - 1]? with
      | none => simp [ha] at h
      | some a =>
        simp only [ha, Option.any_some, Bool.and_eq_true, decide_eq_true_eq,
          Option.ite_none_right_eq_some, Option.some.injEq] at h
        obtain ⟨⟨hi, hd⟩, rfl⟩ := h
        have hsucc : i - 1 + 1 = i := by omega
        refine Or.inr ⟨hsucc.symm, a, m, ha, ?_, hd, hr⟩
        rw [hsucc]
        exact hm
    · simp at h

/-- A step that drops something drops the message and its mate, if it has one. -/
theorem dropStep_indices (cfg : CompactCfg) (movableEnd : Nat) (prune : List Nat)
    {metas : List MsgMeta} (hindex : ∀ (i : Nat) (m : MsgMeta), metas[i]? = some m → m.index = i)
    {m : MsgMeta} {i : Nat} (hm : metas[i]? = some m) (st : Chosen) :
    (dropStep cfg metas movableEnd prune m i st).indices = st.indices ∨
    ∀ x, x ∈ (dropStep cfg metas movableEnd prune m i st).indices ↔
      x ∈ st.indices ∨ x = i ∨ matePos metas i m = some x := by
  have hidx := hindex i m hm
  unfold dropStep
  split
  · exact Or.inl rfl
  · split
    · exact Or.inl rfl
    · right
      intro x
      cases hmate : matePos metas i m with
      | none => simp [hidx]
      | some j =>
        have hj : ∃ n, metas[j]? = some n := by
          rcases pairAt_of_matePos hm hmate with ⟨rfl, _, b, _, hb, _⟩ | ⟨rfl, a, _, ha, _⟩
          · exact ⟨b, hb⟩
          · exact ⟨a, ha⟩
        obtain ⟨n, hn⟩ := hj
        have hnidx := hindex j n hn
        simp only [Option.bind_some, hn, hidx, hnidx, Option.some.injEq]
        split
        · next hmem =>
          simp only [List.contains_iff_mem, List.mem_append, List.mem_singleton] at hmem
          simp only [List.mem_append, List.mem_singleton]
          constructor
          · rintro (h | h)
            · exact Or.inl h
            · exact Or.inr (Or.inl h)
          · rintro (h | h | rfl)
            · exact Or.inl h
            · exact Or.inr h
            · exact hmem
        · simp only [List.mem_append, List.mem_singleton]
          grind

theorem dropStep_pairClosed {cfg : CompactCfg} {metas : List MsgMeta} (hw : WellFormed metas)
    {movableEnd : Nat} {prune : List Nat} {m : MsgMeta} {i : Nat} (hm : metas[i]? = some m)
    {st : Chosen} (h : PairClosed metas st.indices) :
    PairClosed metas (dropStep cfg metas movableEnd prune m i st).indices := by
  rcases dropStep_indices cfg movableEnd prune hw.index_eq hm st with heq | hmem
  · rw [heq]
    exact h
  · intro k hk
    rw [hmem, hmem, h k hk]
    by_cases hik : i = k
    · subst hik
      simp [matePos_dispatch hm hk]
    by_cases hik' : i = k + 1
    · subst hik'
      simp [matePos_result hw hm hk]
    -- away from the pair, neither half can be the mate: no position has two roles
    have hmate : matePos metas i m ≠ some k ∧ matePos metas i m ≠ some (k + 1) := by
      constructor
      · intro hj
        rcases pairAt_of_matePos hm hj with ⟨rfl, hp⟩ | ⟨rfl, hp⟩
        · exact hw.not_pairAt_succ hp hk
        · exact hik' rfl
      · intro hj
        rcases pairAt_of_matePos hm hj with ⟨hj', hp⟩ | ⟨rfl, hp⟩
        · exact hik (by omega)
        · exact hw.not_pairAt_succ hk hp
    have hk' : ¬ k = i := fun he => hik he.symm
    have hk'' : ¬ k + 1 = i := fun he => hik' he.symm
    simp [hmate.1, hmate.2, hk', hk'']

theorem dropLoop_pairClosed {cfg : CompactCfg} {metas : List MsgMeta} (hw : WellFormed metas)
    {movableEnd : Nat} {prune : List Nat} (todo : List (MsgMeta × Nat))
    (htodo : ∀ p ∈ todo, metas[p.2]? = some p.1) {st : Chosen} (h : PairClosed metas st.indices) :
    PairClosed metas (dropLoop cfg metas movableEnd prune todo st).indices := by
  induction todo generalizing st with
  | nil => exact h
  | cons p rest ih =>
    obtain ⟨m, i⟩ := p
    simp only [dropLoop]
    split
    · exact h
    · apply ih
      · intro q hq
        exact htodo q (List.mem_cons_of_mem _ hq)
      · exact dropStep_pairClosed hw (htodo (m, i) List.mem_cons_self) h

theorem zipIdx_take_getElem? {α : Type*} (xs : List α) (n : Nat) :
    ∀ p ∈ (xs.take n).zipIdx, xs[p.2]? = some p.1 := by
  rintro ⟨x, i⟩ hp
  have h := List.mem_zipIdx_iff_getElem?.1 hp
  rw [List.getElem?_take] at h
  split at h
  · exact h
  · simp at h

theorem pairClosed_insertionSort {metas : List MsgMeta} {drop : List Nat}
    (h : PairClosed metas drop) : PairClosed metas (drop.insertionSort (· ≤ ·)) := by
  intro i hi
  rw [List.mem_insertionSort, List.mem_insertionSort]
  exact h i hi

end Compaction

/-- A call and the result right behind it are dropped together or not at all. -/
theorem planCompaction_pairClosed {metas : List MsgMeta} (hw : WellFormed metas)
    (cfg : CompactCfg) : PairClosed metas (planCompaction metas cfg).drop := by
  simp only [planCompaction]
  split
  · exact pairClosed_nil metas
  · split
    · exact pairClosed_nil metas
    · apply pairClosed_insertionSort
      split
      · exact dropLoop_pairClosed hw _ (zipIdx_take_getElem? metas _) (pairClosed_nil metas)
      · exact pairClosed_nil metas

/-! ## The recent messages -/

namespace Compaction

theorem pruneLoop_indices {cfg : CompactCfg} {ms : List MsgMeta} {st : Chosen} {x : Nat}
    (h : x ∈ (pruneLoop cfg ms st).indices) : x ∈ st.indices ∨ ∃ m ∈ ms, m.index = x := by
  induction ms generalizing st with
  | nil => exact Or.inl h
  | cons m ms ih =>
    simp only [pruneLoop] at h
    split at h
    · exact Or.inl h
    · rcases ih h with hst | ⟨m', hm', hx⟩
      · unfold pruneStep at hst
        split at hst
        · rcases List.mem_append.1 hst with hst | hst
          · exact Or.inl hst
          · exact Or.inr ⟨m, List.mem_cons_self, (List.mem_singleton.1 hst).symm⟩
        · exact Or.inl hst
      · exact Or.inr ⟨m', List.mem_cons_of_mem _ hm', hx⟩

/-- A message that may be moved takes along only a mate that may be moved too. -/
theorem dropStep_movable {cfg : CompactCfg} {metas : List MsgMeta}
    (hindex : ∀ (i : Nat) (m : MsgMeta), metas[i]? = some m → m.index = i)
    {movableEnd : Nat} {prune : List Nat} {m : MsgMeta} {i : Nat} (hm : metas[i]? = some m)
    (hi : i < movableEnd) {st : Chosen} (h : ∀ x ∈ st.indices, x < movableEnd) :
    ∀ x ∈ (dropStep cfg metas movableEnd prune m i st).indices, x < movableEnd := by
  intro x hx
  by_cases hmate : (matePos metas i m).any (movableEnd ≤ ·) = true
  · rw [dropStep, if_pos hmate, ite_self] at hx
    exact h x hx
  rcases dropStep_indices cfg movableEnd prune hindex hm st with heq | hmem
  · rw [heq] at hx
    exact h x hx
  · rcases (hmem x).1 hx with hst | rfl | hj
    · exact h x hst
    · exact hi
    · rw [hj, Option.any_some, decide_eq_true_eq] at hmate
      omega

theorem dropLoop_movable {cfg : CompactCfg} {metas : List MsgMeta}
    (hindex : ∀ (i : Nat) (m : MsgMeta), metas[i]? = some m → m.index = i)
    {movableEnd : Nat} {prune : List Nat} (todo : List (MsgMeta × Nat))
    (htodo : ∀ p ∈ todo, metas[p.2]? = some p.1 ∧ p.2 < movableEnd) {st : Chosen}
    (h : ∀ x ∈ st.indices, x < movableEnd) :
    ∀ x ∈ (dropLoop cfg metas movableEnd prune todo st).indices, x < movableEnd := by
  induction todo generalizing st with
  | nil => exact h
  | cons p rest ih =>
    obtain ⟨m, i⟩ := p
    simp only [dropLoop]
    split
    · exact h
    · obtain ⟨hm, hi⟩ := htodo (m, i) List.mem_cons_self
      apply ih
      · intro q hq
        exact htodo q (List.mem_cons_of_mem _ hq)
      · exact dropStep_movable hindex hm hi h

end Compaction

/-- What the plan prunes or drops stands in front of the last `keepRecent` messages. -/
theorem planCompaction_movable {metas : List MsgMeta}
    (hindex : ∀ (i : Nat) (m : MsgMeta), metas[i]? = some m → m.index = i) (cfg : CompactCfg) {x : Nat}
    (hx : x ∈ (planCompaction metas cfg).pruneToolResults ∨ x ∈ (planCompaction metas cfg).drop) :
    x < metas.length - cfg.keepRecent := by
  simp only [planCompaction] at hx
  split at hx
  · simp at hx
  split at hx
  · simp at hx
  rcases hx with hx | hx
  · rcases pruneLoop_indices hx with hx | ⟨m, hm, rfl⟩
    · simp at hx
    obtain ⟨i, hi⟩ := List.mem_iff_getElem?.1 hm
    rw [List.getElem?_take] at hi
    split at hi
    · next hlt =>
      rw [hindex i m hi]
      exact hlt
    · simp at hi
  · rw [List.mem_insertionSort] at hx
    split at hx
    · refine dropLoop_movable hindex _ ?_ (by simp) x hx
      intro p hp
      refine ⟨zipIdx_take_getElem? metas _ p hp, ?_⟩
      have hlt := (List.getElem?_eq_some_iff.1 (List.mem_zipIdx_iff_getElem?.1 hp)).1
      rw [List.length_take] at hlt
      omega
    · simp at hx

theorem planCompaction_pruneToTokens (metas : List MsgMeta) (cfg : CompactCfg) :
    (planCompaction metas cfg).pruneToTokens = cfg.pruneToolToTokens := by
  simp only [planCompaction]
  split
  · rfl
  · split <;> rfl

/-- Up to the trigger nothing is planned. -/
theorem planCompaction_of_le {metas : List MsgMeta} {cfg : CompactCfg}
    (h : (metas.map (·.tokens)).sum ≤ cfg.trigger) : (planCompaction metas cfg).isNoop = true := by
  simp only [planCompaction, if_pos h]
  rfl

end OhMyClaw
