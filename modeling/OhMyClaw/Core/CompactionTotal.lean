import Mathlib.Tactic.Common
import OhMyClaw.Core.Compaction

/-!
# What a compaction plan leaves

The plan keeps a running total while it prunes and drops.  Here the total is compared with
the messages: it is at every point the sum of what is left of them, and when the plan ends
above the trigger it has dropped all it was allowed to drop.

    dropLoop_projected   the running total is the sum of what is left
    dropLoop_covers      a loop that ends above the trigger has left nothing it may drop
    planCompaction_left  the plan as a whole
-/

namespace OhMyClaw

/-- What the plan leaves of a message: nothing of a dropped one, the target of a pruned one. -/
def CompactPlan.leaves (plan : CompactPlan) (m : MsgMeta) : Int :=
  if m.index ∈ plan.drop then 0
  else if m.index ∈ plan.pruneToolResults then plan.pruneToTokens
  else m.tokens

/-- The total the plan expects of the messages. -/
def CompactPlan.projected (plan : CompactPlan) (metas : List MsgMeta) : Int :=
  (metas.map plan.leaves).sum

namespace Compaction

/-- Position `i` is the last movable one and holds a call whose result is the first of the
recent messages. -/
def Straddles (metas : List MsgMeta) (movableEnd i : Nat) : Prop :=
  i + 1 = movableEnd ∧ PairAt metas i

/-! ## Sums that change at one message -/

theorem sum_map_change {α : Type*} (f g : α → Int) {l : List α} {a : α} (hnd : l.Nodup)
    (ha : a ∈ l) (h : ∀ b ∈ l, b ≠ a → g b = f b) :
    (l.map g).sum = (l.map f).sum - (f a - g a) := by
  induction l with
  | nil => simp at ha
  | cons b l ih =>
    obtain ⟨hb, hl⟩ := List.nodup_cons.1 hnd
    simp only [List.map_cons, List.sum_cons]
    rcases List.mem_cons.1 ha with rfl | ha
    · have hsame : l.map g = l.map f := by
        apply List.map_congr_left
        intro c hc
        apply h c (List.mem_cons_of_mem _ hc)
        rintro rfl
        exact hb hc
      rw [hsame]
      omega
    · have hba : b ≠ a := by
        rintro rfl
        exact hb ha
      rw [ih hl ha (fun c hc => h c (List.mem_cons_of_mem _ hc)), h b List.mem_cons_self hba]
      omega

section
variable {metas : List MsgMeta}
  (hindex : ∀ (i : Nat) (m : MsgMeta), metas[i]? = some m → m.index = i)
include hindex

theorem nodup_of_index : metas.Nodup := by
  apply List.Nodup.of_map (fun m => m.index)
  rw [List.nodup_iff_injective_get]
  intro i j hij
  have hi := hindex i (metas.get (i.cast (by simp))) (by simp)
  have hj := hindex j (metas.get (j.cast (by simp))) (by simp)
  simp only [List.get_eq_getElem, List.getElem_map] at hij hi hj
  ext
  simp only [Fin.val_cast] at hi hj
  omega

theorem index_inj {a b : MsgMeta} (ha : a ∈ metas) (hb : b ∈ metas) (h : a.index = b.index) :
    a = b := by
  obtain ⟨i, hi⟩ := List.mem_iff_getElem?.1 ha
  obtain ⟨j, hj⟩ := List.mem_iff_getElem?.1 hb
  rw [hindex i a hi, hindex j b hj] at h
  subst h
  simpa [hi] using hj

/-! ## The running total while pruning -/

omit hindex in
@[simp] theorem effective_nil (cfg : CompactCfg) : effective cfg [] = fun m => m.tokens := by
  funext m
  simp [effective]

theorem pruneStep_projected (cfg : CompactCfg) {m : MsgMeta} (hm : m ∈ metas) {st : Chosen}
    (hnew : m.index ∉ st.indices)
    (h : st.projected = (metas.map (effective cfg st.indices)).sum) :
    (pruneStep cfg m st).projected =
      (metas.map (effective cfg (pruneStep cfg m st).indices)).sum := by
  unfold pruneStep
  split
  · have hother : ∀ b ∈ metas, b ≠ m →
        effective cfg (st.indices ++ [m.index]) b = effective cfg st.indices b := by
      intro b hb hbm
      have hne : b.index ≠ m.index := fun he => hbm (index_inj hindex hb hm he)
      simp [effective, hne]
    show st.projected - (m.tokens - cfg.pruneToolToTokens) = _
    rw [sum_map_change _ _ (nodup_of_index hindex) hm hother, h]
    simp [effective, hnew]
  · exact h

theorem pruneLoop_projected (cfg : CompactCfg) {todo : List MsgMeta} (htodo : ∀ m ∈ todo, m ∈ metas)
    (hnd : todo.Nodup) (st : Chosen) (hnew : ∀ m ∈ todo, m.index ∉ st.indices)
    (h : st.projected = (metas.map (effective cfg st.indices)).sum) :
    (pruneLoop cfg todo st).projected =
      (metas.map (effective cfg (pruneLoop cfg todo st).indices)).sum := by
  induction todo generalizing st with
  | nil => exact h
  | cons m todo ih =>
    obtain ⟨hm, hnd⟩ := List.nodup_cons.1 hnd
    have hmem := htodo m List.mem_cons_self
    simp only [pruneLoop]
    split
    · exact h
    · refine ih (fun n hn => htodo n (List.mem_cons_of_mem _ hn)) hnd _ ?_
        (pruneStep_projected hindex cfg hmem (hnew m List.mem_cons_self) h)
      intro n hn
      have hne : n.index ≠ m.index := by
        intro he
        obtain rfl := index_inj hindex (htodo n (List.mem_cons_of_mem _ hn)) hmem he
        exact hm hn
      have hn' := hnew n (List.mem_cons_of_mem _ hn)
      unfold pruneStep
      split
      · simp [hn', hne]
      · exact hn'

/-! ## The running total while dropping -/

/-- What is left of a message between two drops. -/
def leftOf (cfg : CompactCfg) (prune drop : List Nat) (m : MsgMeta) : Int :=
  if m.index ∈ drop then 0 else effective cfg prune m

omit hindex in
@[simp] theorem leftOf_nil (cfg : CompactCfg) (prune : List Nat) :
    leftOf cfg prune [] = effective cfg prune := by
  funext m
  simp [leftOf]

omit hindex in
theorem leftOf_of_notMem {cfg : CompactCfg} {prune drop : List Nat} {m : MsgMeta}
    (h : m.index ∉ drop) : leftOf cfg prune drop m = effective cfg prune m := by
  simp [leftOf, h]

theorem sum_leftOf_append (cfg : CompactCfg) (prune : List Nat) {drop : List Nat} {m : MsgMeta}
    (hm : m ∈ metas) (hnew : m.index ∉ drop) :
    (metas.map (leftOf cfg prune (drop ++ [m.index]))).sum =
      (metas.map (leftOf cfg prune drop)).sum - effective cfg prune m := by
  have hother : ∀ b ∈ metas, b ≠ m →
      leftOf cfg prune (drop ++ [m.index]) b = leftOf cfg prune drop b := by
    intro b hb hbm
    have hne : b.index ≠ m.index := fun he => hbm (index_inj hindex hb hm he)
    simp [leftOf, hne]
  rw [sum_map_change _ _ (nodup_of_index hindex) hm hother, leftOf_of_notMem hnew]
  simp [leftOf]

theorem dropStep_projected (cfg : CompactCfg) (movableEnd : Nat) (prune : List Nat) {m : MsgMeta}
    (i : Nat) (hm : m ∈ metas) {st : Chosen}
    (h : st.projected = (metas.map (leftOf cfg prune st.indices)).sum) :
    (dropStep cfg metas movableEnd prune m i st).projected =
      (metas.map (leftOf cfg prune (dropStep cfg metas movableEnd prune m i st).indices)).sum := by
  unfold dropStep
  split
  · exact h
  next hnew =>
  simp only [List.contains_iff_mem] at hnew
  split
  · exact h
  have hone := sum_leftOf_append hindex cfg prune hm hnew
  cases hmate : (matePos metas i m).bind (metas[·]?) with
  | none =>
    show st.projected - effective cfg prune m = _
    rw [h, hone]
  | some mate =>
    have hmem : mate ∈ metas := by
      obtain ⟨j, _, hj⟩ := Option.bind_eq_some_iff.1 hmate
      exact List.mem_of_getElem? hj
    simp only
    split
    · show st.projected - effective cfg prune m = _
      rw [h, hone]
    next hnew' =>
    simp only [List.contains_iff_mem] at hnew'
    show st.projected - effective cfg prune m - effective cfg prune mate = _
    rw [sum_leftOf_append hindex cfg prune hmem hnew', hone, h]

/-- The running total is the sum of what is left. -/
theorem dropLoop_projected (cfg : CompactCfg) (movableEnd : Nat) (prune : List Nat)
    (todo : List (MsgMeta × Nat)) (htodo : ∀ p ∈ todo, p.1 ∈ metas) (st : Chosen)
    (h : st.projected = (metas.map (leftOf cfg prune st.indices)).sum) :
    (dropLoop cfg metas movableEnd prune todo st).projected =
      (metas.map (leftOf cfg prune (dropLoop cfg metas movableEnd prune todo st).indices)).sum := by
  induction todo generalizing st with
  | nil => exact h
  | cons p todo ih =>
    obtain ⟨m, i⟩ := p
    simp only [dropLoop]
    split
    · exact h
    · apply ih
      · intro q hq
        exact htodo q (List.mem_cons_of_mem _ hq)
      · exact dropStep_projected hindex cfg movableEnd prune i (htodo (m, i) List.mem_cons_self) h

end

/-! ## What a loop that ends above the trigger has dropped -/

theorem dropStep_mono (cfg : CompactCfg) (metas : List MsgMeta) (movableEnd : Nat) (prune : List Nat)
    (m : MsgMeta) (i : Nat) {st : Chosen} {x : Nat} (hx : x ∈ st.indices) :
    x ∈ (dropStep cfg metas movableEnd prune m i st).indices := by
  unfold dropStep
  split
  · exact hx
  split
  · exact hx
  cases (matePos metas i m).bind (metas[·]?) with
  | none => simp [hx]
  | some mate =>
    simp only
    split <;> simp [hx]

theorem dropLoop_mono (cfg : CompactCfg) (metas : List MsgMeta) (movableEnd : Nat) (prune : List Nat)
    (todo : List (MsgMeta × Nat)) {st : Chosen} {x : Nat} (hx : x ∈ st.indices) :
    x ∈ (dropLoop cfg metas movableEnd prune todo st).indices := by
  induction todo generalizing st with
  | nil => exact hx
  | cons p todo ih =>
    simp only [dropLoop]
    split
    · exact hx
    · exact ih (dropStep_mono cfg metas movableEnd prune p.1 p.2 hx)

/-- A step drops its message, unless it is the call of a pair that straddles the recent window. -/
theorem dropStep_covers (cfg : CompactCfg) {metas : List MsgMeta} {movableEnd : Nat}
    (prune : List Nat) {m : MsgMeta} {i : Nat} (hm : metas[i]? = some m) (hi : i < movableEnd)
    (st : Chosen) :
    m.index ∈ (dropStep cfg metas movableEnd prune m i st).indices ∨
      Straddles metas movableEnd i := by
  unfold dropStep
  split
  · next hmem => exact Or.inl (List.contains_iff_mem.1 hmem)
  split
  · next hany =>
    right
    obtain ⟨j, hmate, hj⟩ : ∃ j, matePos metas i m = some j ∧ movableEnd ≤ j := by
      cases hmate : matePos metas i m with
      | none => simp [hmate] at hany
      | some j => simpa [hmate] using hany
    rcases pairAt_of_matePos hm hmate with ⟨rfl, hp⟩ | ⟨rfl, _⟩
    · exact ⟨by omega, hp⟩
    · omega
  · left
    cases (matePos metas i m).bind (metas[·]?) with
    | none => simp
    | some mate =>
      simp only
      split <;> simp

theorem dropLoop_covers (cfg : CompactCfg) {metas : List MsgMeta} {movableEnd : Nat}
    (prune : List Nat) {todo : List (MsgMeta × Nat)}
    (htodo : ∀ p ∈ todo, metas[p.2]? = some p.1 ∧ p.2 < movableEnd) (st : Chosen) :
    (dropLoop cfg metas movableEnd prune todo st).projected ≤ cfg.trigger ∨
      ∀ p ∈ todo, p.1.index ∈ (dropLoop cfg metas movableEnd prune todo st).indices ∨
        Straddles metas movableEnd p.2 := by
  induction todo generalizing st with
  | nil => simp
  | cons p todo ih =>
    obtain ⟨m, i⟩ := p
    simp only [dropLoop]
    split
    · next hle => exact Or.inl hle
    · refine (ih (fun q hq => htodo q (List.mem_cons_of_mem _ hq)) _).imp id ?_
      intro hall q hq
      rcases List.mem_cons.1 hq with rfl | hq
      · obtain ⟨hm, hi⟩ := htodo (m, i) List.mem_cons_self
        exact (dropStep_covers cfg prune hm hi st).imp (dropLoop_mono _ _ _ _ _) id
      · exact hall q hq

theorem mem_zipIdx_take {α : Type*} {xs : List α} {n i : Nat} (hi : i < n) {x : α}
    (h : xs[i]? = some x) : (x, i) ∈ (xs.take n).zipIdx := by
  rw [List.mem_zipIdx_iff_getElem?, List.getElem?_take, if_pos hi]
  exact h

end Compaction

/-! ## The plan -/

open Compaction

theorem CompactPlan.leaves_eq (cfg : CompactCfg) {plan : CompactPlan}
    (h : plan.pruneToTokens = cfg.pruneToolToTokens) :
    plan.leaves = leftOf cfg plan.pruneToolResults plan.drop := by
  funext m
  simp [CompactPlan.leaves, leftOf, effective, h]

/-- The plan ends at the trigger or below, or it has dropped every message it may move but the
call of a straddling pair. -/
theorem planCompaction_projected {metas : List MsgMeta}
    (hindex : ∀ (i : Nat) (m : MsgMeta), metas[i]? = some m → m.index = i) (cfg : CompactCfg) :
    (planCompaction metas cfg).projected metas ≤ cfg.trigger ∨
      ∀ i < metas.length - cfg.keepRecent,
        i ∈ (planCompaction metas cfg).drop ∨ Straddles metas (metas.length - cfg.keepRecent) i := by
  simp only [planCompaction]
  split
  · next hle =>
    left
    simpa [CompactPlan.projected, CompactPlan.leaves_eq cfg] using hle
  split
  · next hend =>
    right
    intro i hi
    omega
  generalize hend : metas.length - cfg.keepRecent = movableEnd
  have htake : ∀ m ∈ metas.take movableEnd, m ∈ metas := fun m hm => List.mem_of_mem_take hm
  have hpruned := pruneLoop_projected hindex cfg htake
    ((nodup_of_index hindex).sublist (List.take_sublist _ _))
    { projected := (metas.map (·.tokens)).sum, indices := [] } (by simp) (by simp)
  generalize pruneLoop cfg (metas.take movableEnd) _ = pruned at hpruned
  -- the total the plan states is the running total of the second loop
  have hsum : ∀ drop : List Nat, ∀ summarize,
      ({ pruneToolResults := pruned.indices, drop := drop.insertionSort (· ≤ ·), summarize,
         pruneToTokens := cfg.pruneToolToTokens } : CompactPlan).projected metas =
        (metas.map (leftOf cfg pruned.indices drop)).sum := by
    intro drop summarize
    have hsame : leftOf cfg pruned.indices (drop.insertionSort (· ≤ ·)) = leftOf cfg pruned.indices drop := by
      funext m
      simp [leftOf]
    rw [CompactPlan.projected, CompactPlan.leaves_eq cfg rfl, hsame]
  simp only [hsum]
  split
  · have hzip := zipIdx_take_getElem? metas movableEnd
    have hdropped := dropLoop_projected hindex cfg movableEnd pruned.indices
      (metas.take movableEnd).zipIdx (fun p hp => List.mem_of_getElem? (hzip p hp))
      { projected := pruned.projected, indices := [] } (by simpa using hpruned)
    rw [← hdropped]
    refine (dropLoop_covers cfg pruned.indices ?_ _).imp id ?_
    · intro p hp
      refine ⟨hzip p hp, ?_⟩
      have hlt := (List.getElem?_eq_some_iff.1 (List.mem_zipIdx_iff_getElem?.1 hp)).1
      rw [List.length_take] at hlt
      omega
    · intro hall i hi
      have hm : metas[i]? = some metas[i] := List.getElem?_eq_getElem (by omega)
      have := hall _ (mem_zipIdx_take hi hm)
      rwa [hindex i _ hm, ← List.mem_insertionSort (· ≤ ·)] at this
  · next hle =>
    left
    simpa [← hpruned] using hle

/-- What the plan keeps to: the recent messages stay, pairs go together, nothing is done up to
the trigger, and above it the plan gets there or drops all it may. -/
theorem planCompaction_sound {metas : List MsgMeta}
    (hindex : ∀ (i : Nat) (m : MsgMeta), metas[i]? = some m → m.index = i) (cfg : CompactCfg) :
    (∀ x, x ∈ (planCompaction metas cfg).pruneToolResults ∨ x ∈ (planCompaction metas cfg).drop →
      x < metas.length - cfg.keepRecent) ∧
    ((∀ m ∈ metas, m.isToolDispatch = true → m.isToolResult = false) →
      PairClosed metas (planCompaction metas cfg).drop) ∧
    ((metas.map (·.tokens)).sum ≤ cfg.trigger → (planCompaction metas cfg).isNoop = true) ∧
    ((planCompaction metas cfg).projected metas ≤ cfg.trigger ∨
      ∀ i < metas.length - cfg.keepRecent,
        i ∈ (planCompaction metas cfg).drop ∨
          Straddles metas (metas.length - cfg.keepRecent) i) := by
  refine ⟨?_, ?_, planCompaction_of_le, planCompaction_projected hindex cfg⟩
  · intro x hx
    exact planCompaction_movable hindex cfg hx
  · intro hexcl
    exact planCompaction_pairClosed ⟨hindex, hexcl⟩ cfg

/-- A long result is pruned and the first message dropped; that is enough. -/
theorem planCompaction_sound_long_result :
    let metas : List MsgMeta := [⟨0, 5, false, false⟩, ⟨1, 3, false, true⟩, ⟨2, 40, true, false⟩, ⟨3, 5, false, false⟩]
    let cfg : CompactCfg := ⟨10, 2, 1, false⟩
    (planCompaction metas cfg).pruneToolResults = [2] ∧ (planCompaction metas cfg).drop = [0] ∧
      ∀ x, x ∈ (planCompaction metas cfg).pruneToolResults ∨ x ∈ (planCompaction metas cfg).drop →
        x < 3 := by
  intro metas cfg
  refine ⟨by decide, by decide, ?_⟩
  have hindex : ∀ (i : Nat) (m : MsgMeta), metas[i]? = some m → m.index = i := by
    intro i m hm
    obtain _ | _ | _ | _ | i := i <;> simp [metas] at hm <;> simp [← hm]
  exact (planCompaction_sound hindex cfg).1

/-- With a message that is both a result and a call, a pair may come apart. -/
theorem planCompaction_splits_chain :
    ¬ ∀ (metas : List MsgMeta) (cfg : CompactCfg),
      (∀ (i : Nat) (m : MsgMeta), metas[i]? = some m → m.index = i) →
      (∀ m ∈ metas, 0 < m.tokens) → 0 ≤ cfg.pruneToolToTokens →
      PairClosed metas (planCompaction metas cfg).drop := by
  intro h
  have hpair := h [⟨0, 10, false, true⟩, ⟨1, 10, true, true⟩, ⟨2, 10, true, false⟩, ⟨3, 10, false, false⟩]
    ⟨25, 100, 1, false⟩ ?_ (by decide) (by decide) 1 ⟨_, _, rfl, rfl, rfl, rfl⟩
  · revert hpair
    decide
  · intro i m hm
    obtain _ | _ | _ | _ | i := i <;> simp at hm <;> simp [← hm]

end OhMyClaw
