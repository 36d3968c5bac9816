import Mathlib.Algebra.Order.BigOperators.Group.List
import Mathlib.Tactic.Linarith
import OhMyClaw.Core.CompactionTotal
import OhMyClaw.Server.BeginRun

/-!
# What a compacted request weighs

The plan counts a pruned tool result at its target, in scaled tokens.  The cut itself keeps four
characters for each token of the target, whatever the scale, and puts a marker behind them.
Here the compacted list is measured the way the plan measured the list it was made from: what
comes out is the total of the plan, and on top of it what the pruned results weigh above their
target.

    measured_keepEdited      the total of the plan and the overshoot
    measured_le_of_light     a scale so small that no cut text weighs more than the target
    compactWith_fits_iff     when a plan that ends at the trigger leads to a list that does
-/

namespace OhMyClaw

namespace Run

/-- `applyCompaction` with the calibration already decided. -/
def compactWith (scale : ℚ) (messages : List Message) (cfg : CompactCfg) : List Message :=
  let plan := planCompaction (messageMetas scale messages 0) cfg
  if plan.isNoop then messages
  else keepEdited plan.drop (pruneMessage plan) messages.zipIdx

theorem applyCompaction_eq_compactWith (messages : List Message) (cfg : CompactCfg)
    (realInputTokens : Option Int) :
    applyCompaction messages cfg realInputTokens =
      compactWith (tokenScale (messages.map fun m => estimateTokens m.content).sum realInputTokens)
        messages cfg := rfl

/-- The total of a message list, counted as the plan counts it. -/
def measured (scale : ℚ) (messages : List Message) : Int :=
  ((messageMetas scale messages 0).map (·.tokens)).sum

/-- What a text cut to the target weighs: the marker behind it adds three tokens. -/
def cutTokens (scale : ℚ) (pruneToTokens : Int) : Int :=
  max (roundHalfAway (((pruneToTokens.toNat + 3 : Nat) : Int) * scale)) 1

/-- What a message the plan prunes weighs afterwards.  A text that has no more characters than
the cut would leave stays as it is, whatever it weighs. -/
def prunedTokens (scale : ℚ) (pruneToTokens : Int) (m : Message) : Int :=
  if (pruneToTokens * 4).toNat < m.content.length then cutTokens scale pruneToTokens
  else (messageMeta scale m 0).tokens

/-- What the messages the plan prunes and keeps weigh above its target. -/
def overshoot (scale : ℚ) (plan : CompactPlan) (messages : List (Message × Nat)) : Int :=
  (messages.map fun p =>
    if p.2 ∈ plan.drop then 0
    else if p.2 ∈ plan.pruneToolResults then
      prunedTokens scale plan.pruneToTokens p.1 - plan.pruneToTokens
    else 0).sum

/-! ## One message -/

theorem tokens_messageMeta_index (scale : ℚ) (m : Message) (i j : Nat) :
    (messageMeta scale m i).tokens = (messageMeta scale m j).tokens := rfl

theorem estimateTokens_cut {p : Int} {content : String} (h : (p * 4).toNat < content.length) :
    estimateTokens (String.ofList (content.toList.take (p * 4).toNat) ++ "\n…[旧工具输出已剪枝]") =
      ((p.toNat + 3 : Nat) : Int) := by
  have hmarker : "\n…[旧工具输出已剪枝]".length = 12 := by decide
  have hkept : (String.ofList (content.toList.take (p * 4).toNat)).length = (p * 4).toNat := by
    rw [String.length_ofList, List.length_take, String.length_toList]
    omega
  rw [estimateTokens, String.length_append, hmarker, hkept]
  omega

theorem tokens_pruneMessage (scale : ℚ) (plan : CompactPlan) (m : Message) (i j : Nat) :
    (messageMeta scale (pruneMessage plan i m) j).tokens =
      if i ∈ plan.pruneToolResults then prunedTokens scale plan.pruneToTokens m
      else (messageMeta scale m j).tokens := by
  by_cases hi : i ∈ plan.pruneToolResults
  · have hcontains : plan.pruneToolResults.contains i = true := List.contains_iff_mem.2 hi
    rw [if_pos hi, prunedTokens, pruneMessage, hcontains]
    by_cases hlen : (plan.pruneToTokens * 4).toNat < m.content.length
    · simp only [hlen, decide_true, Bool.and_self, if_true, messageMeta, cutTokens,
        estimateTokens_cut hlen]
    · simp only [hlen, decide_false, Bool.and_false, Bool.false_eq_true, if_false]
      exact tokens_messageMeta_index scale m j 0
  · rw [if_neg hi, pruneMessage]
    simp [hi]

/-! ## The whole list -/

theorem map_tokens_messageMetas (scale : ℚ) (ms : List Message) (k : Nat) :
    (messageMetas scale ms k).map (·.tokens) = ms.map fun m => (messageMeta scale m 0).tokens := by
  induction ms generalizing k with
  | nil => rfl
  | cons m ms ih => rw [messageMetas, List.map_cons, ih, List.map_cons, tokens_messageMeta_index]

theorem measured_cons (scale : ℚ) (m : Message) (ms : List Message) :
    measured scale (m :: ms) = (messageMeta scale m 0).tokens + measured scale ms := by
  simp only [measured, map_tokens_messageMetas, List.map_cons, List.sum_cons]

theorem measured_keepEdited (scale : ℚ) (plan : CompactPlan) (ms : List Message) (k : Nat) :
    measured scale (keepEdited plan.drop (pruneMessage plan) (ms.zipIdx k)) =
      plan.projected (messageMetas scale ms k) + overshoot scale plan (ms.zipIdx k) := by
  induction ms generalizing k with
  | nil => rfl
  | cons m ms ih =>
    have hrest := ih (k + 1)
    have hindex : (messageMeta scale m k).index = k := rfl
    simp only [keepEdited, CompactPlan.projected, overshoot, messageMetas, List.zipIdx_cons,
      List.filterMap_cons, List.map_cons, List.sum_cons, List.contains_iff_mem,
      CompactPlan.leaves, hindex] at hrest ⊢
    by_cases hdrop : k ∈ plan.drop
    · simp only [hdrop, if_true]
      omega
    · simp only [hdrop, if_false]
      rw [measured_cons, tokens_pruneMessage, hrest, tokens_messageMeta_index scale m 0 k]
      split <;> omega

theorem overshoot_eq_zero {scale : ℚ} {plan : CompactPlan} {ms : List (Message × Nat)}
    (h : plan.pruneToolResults = []) : overshoot scale plan ms = 0 := by
  simp [overshoot, h]

/-- What comes out weighs what the plan says and the overshoot. -/
theorem measured_compactWith (scale : ℚ) (ms : List Message) (cfg : CompactCfg) :
    measured scale (compactWith scale ms cfg) =
      (planCompaction (messageMetas scale ms 0) cfg).projected (messageMetas scale ms 0) +
        overshoot scale (planCompaction (messageMetas scale ms 0) cfg) ms.zipIdx := by
  unfold compactWith
  generalize planCompaction (messageMetas scale ms 0) cfg = plan
  simp only
  split
  · next hnoop =>
    simp only [CompactPlan.isNoop, Bool.and_eq_true, List.isEmpty_iff] at hnoop
    obtain ⟨⟨hprune, hdrop⟩, -⟩ := hnoop
    have hleaves : plan.leaves = fun m => m.tokens := by
      funext m
      simp [CompactPlan.leaves, hprune, hdrop]
    rw [overshoot_eq_zero hprune, measured, CompactPlan.projected, hleaves, Int.add_zero]
  · exact measured_keepEdited scale plan ms 0

/-! ## When the plan is met -/

theorem roundHalfAway_mono {a b : ℚ} (ha : 0 ≤ a) (h : a ≤ b) : roundHalfAway a ≤ roundHalfAway b := by
  rw [roundHalfAway, roundHalfAway, if_pos ha, if_pos (ha.trans h)]
  exact Int.floor_le_floor (by linarith)

/-- No pruned message weighs more than a text cut to the target. -/
theorem prunedTokens_le {scale : ℚ} (hscale : 0 ≤ scale) (p : Int) (m : Message) :
    prunedTokens scale p m ≤ cutTokens scale p := by
  unfold prunedTokens
  split
  · exact le_refl _
  next hlen =>
  have hest : estimateTokens m.content ≤ ((p.toNat + 3 : Nat) : Int) := by
    unfold estimateTokens
    omega
  have hnonneg : 0 ≤ estimateTokens m.content := by
    unfold estimateTokens
    omega
  have hprod : (estimateTokens m.content : ℚ) * scale ≤ ((p.toNat + 3 : Nat) : Int) * scale := by
    apply mul_le_mul_of_nonneg_right _ hscale
    exact_mod_cast hest
  have hround := roundHalfAway_mono (mul_nonneg (by exact_mod_cast hnonneg) hscale) hprod
  show max (roundHalfAway (estimateTokens m.content * scale)) 1 ≤ cutTokens scale p
  unfold cutTokens
  omega

/-- From scale one on a cut text is at least three tokens over the target. -/
theorem le_cutTokens {scale : ℚ} (hscale : 1 ≤ scale) (p : Int) : p + 3 ≤ cutTokens scale p := by
  have hnonneg : (0 : ℚ) ≤ ((p.toNat + 3 : Nat) : Int) := by positivity
  have hprod : (((p.toNat + 3 : Nat) : Int) : ℚ) ≤ ((p.toNat + 3 : Nat) : Int) * scale :=
    le_mul_of_one_le_right hnonneg hscale
  have hround := roundHalfAway_mono hnonneg hprod
  rw [roundHalfAway_intCast (by omega)] at hround
  unfold cutTokens
  omega

/-- Where a cut text weighs no more than the target, the plan is met. -/
theorem measured_le_of_light {scale : ℚ} (hscale : 0 ≤ scale) (ms : List Message) {cfg : CompactCfg}
    (h : cutTokens scale cfg.pruneToolToTokens ≤ cfg.pruneToolToTokens) :
    measured scale (compactWith scale ms cfg) ≤
      (planCompaction (messageMetas scale ms 0) cfg).projected (messageMetas scale ms 0) := by
  rw [measured_compactWith]
  have hover : overshoot scale (planCompaction (messageMetas scale ms 0) cfg) ms.zipIdx ≤ 0 := by
    refine (List.sum_le_card_nsmul _ 0 ?_).trans_eq (nsmul_zero _)
    intro x hx
    obtain ⟨p, -, rfl⟩ := List.mem_map.1 hx
    have hp := prunedTokens_le hscale cfg.pruneToolToTokens p.1
    simp only [planCompaction_pruneToTokens]
    split
    · exact le_refl _
    split
    · omega
    · exact le_refl _
  omega

/-- A plan that ends at the trigger or below leads to a list that does exactly when the room it
leaves takes what the pruned messages weigh above the target. -/
theorem compactWith_fits_iff (scale : ℚ) (ms : List Message) (cfg : CompactCfg) :
    let plan := planCompaction (messageMetas scale ms 0) cfg
    let projected := plan.projected (messageMetas scale ms 0)
    (projected ≤ cfg.trigger → measured scale (compactWith scale ms cfg) ≤ cfg.trigger) ↔
      (projected ≤ cfg.trigger → overshoot scale plan ms.zipIdx ≤ cfg.trigger - projected) := by
  simp only [measured_compactWith]
  constructor
  · intro h hle
    have := h hle
    omega
  · intro h hle
    have := h hle
    omega

/-- A result of ten tokens cut to one weighs four. -/
theorem compactWith_overflows :
    ¬ ∀ (scale : ℚ) (ms : List Message) (cfg : CompactCfg), 0 < scale →
      (planCompaction (messageMetas scale ms 0) cfg).projected (messageMetas scale ms 0) ≤ cfg.trigger →
        measured scale (compactWith scale ms cfg) ≤ cfg.trigger := by
  intro h
  have := h 1 [.plain .tool "0123456789012345678901234567890123456789", .plain .user "好"] ⟨2, 1, 1, false⟩
    (by norm_num) (by decide +kernel)
  revert this
  decide +kernel

end Run

end OhMyClaw
