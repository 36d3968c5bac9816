import Mathlib.Algebra.Order.Ring.Rat
import Mathlib.Data.List.Sort
import OhMyClaw.Lib.RustStr
import OhMyClaw.Store.Memory

/-!
# Which memories are consolidated

A scan looks at the episodic memories, lets some of them through two gates, and asks the model
what is to become of those.

    dreamingGate_full      the memories let through are the best of those that pass the gates
-/

namespace OhMyClaw

structure DreamCandidate where
  id : String
  tier : Tier
  origin : Origin
  importance : ℚ
  useCount : Nat
  ageSecs : Int
deriving DecidableEq, Repr

structure DreamCfg where
  minImportance : ℚ
  minUseCount : Nat
  minAgeSecs : Int
  maxAgeSecs : Int
  maxConsolidations : Nat
deriving DecidableEq, Repr

def DreamCfg.default : DreamCfg :=
  { minImportance := 1 / 2, minUseCount := 2, minAgeSecs := 3 * 86400, maxAgeSecs := 180 * 86400
    maxConsolidations := 8 }

inductive GateReject where
  | notEpisodic | untrustedOrigin | lowImportance | lowUseCount | tooRecent | tooOld
deriving DecidableEq, Repr

structure Consolidation where
  id : String
  priority : ℚ
deriving DecidableEq, Repr

/-- The first gate that refuses a candidate; `none` if all let it through. -/
def gateCheck (c : DreamCandidate) (cfg : DreamCfg) : Option GateReject :=
  if c.tier ≠ .episodic then some .notEpisodic
  else if c.origin = .untrusted ∨ c.origin = .system then some .untrustedOrigin
  else if c.importance < cfg.minImportance then some .lowImportance
  else if c.useCount < cfg.minUseCount then some .lowUseCount
  else if c.ageSecs < cfg.minAgeSecs then some .tooRecent
  else if 0 < cfg.maxAgeSecs ∧ cfg.maxAgeSecs < c.ageSecs then some .tooOld
  else none

/-- The best of those let through; `fl` rounds the product to a floating-point number. -/
def dreamingGate (fl : ℚ → ℚ) (cands : List DreamCandidate) (cfg : DreamCfg) : List Consolidation :=
  let passed := (cands.filter fun c => gateCheck c cfg = none).map fun c =>
    { id := c.id, priority := fl (c.importance * c.useCount) : Consolidation }
  (passed.insertionSort fun a b => b.priority ≤ a.priority).take cfg.maxConsolidations

/-! ## Decisions -/

inductive ConsolidateAction where
  | create | corroborate | refine | correct
deriving DecidableEq, Repr

structure ConsolidateItem where
  sourceId : String
  action : ConsolidateAction
  targetId : Option String
  mergedText : String
deriving DecidableEq, Repr

def fence : List Char := ['\x60', '\x60', '\x60']

/-- The text between the fences of a code block. -/
def stripFence (trimmed : List Char) : Option (List Char) :=
  match RustStr.stripPrefix trimmed fence with
  | some s =>
    let body := RustStr.trim ((RustStr.stripPrefix s "json".toList).getD s)
    if fence.isSuffixOf body then some (body.take (body.length - fence.length)) else none
  | none => none

/-- From the first opening brace to the last closing one. -/
def braced (json : List Char) : Option (List Char) :=
  if json.contains '\x7b' ∧ json.contains '\x7d' then
    let start := json.idxOf '\x7b'
    let last := json.length - 1 - json.reverse.idxOf '\x7d'
    if last ≤ start then none else some ((json.take (last + 1)).drop start)
  else none

/-- `- [id] text`, a line for each memory. -/
def promptLines (memories : List (String × String)) : String :=
  String.join (memories.map fun p => "- [" ++ p.1 ++ "] " ++ String.ofList (RustStr.trim p.2.toList) ++ "\n")

def buildConsolidateDecisionPrompt (existingCurated items : List (String × String)) : String :=
  (if existingCurated.isEmpty then "" else "## 既有长期记忆（curated）\n\n" ++ promptLines existingCurated ++ "\n") ++
    "## 本轮新巩固候选（episodic）\n\n" ++ promptLines items ++ "\n请按系统要求输出 JSON。"

/-- The decisions in the model's answer; `fromStr` is `serde_json::from_str`. -/
def parseConsolidations (fromStr : List Char → Option (List ConsolidateItem)) (raw : String) :
    Option (List ConsolidateItem) :=
  let trimmed := RustStr.trim raw.toList
  let json := (stripFence trimmed).getD trimmed
  (braced json).bind fromStr

/-! ## The gates -/

/-- What the gates ask of a candidate. -/
structure Gated (c : DreamCandidate) (cfg : DreamCfg) : Prop where
  tier : c.tier = .episodic
  origin : c.origin = .owner ∨ c.origin = .agent
  importance : cfg.minImportance ≤ c.importance
  useCount : cfg.minUseCount ≤ c.useCount
  recent : cfg.minAgeSecs ≤ c.ageSecs
  old : 0 < cfg.maxAgeSecs → c.ageSecs ≤ cfg.maxAgeSecs

theorem gateCheck_eq_none_iff (c : DreamCandidate) (cfg : DreamCfg) : gateCheck c cfg = none ↔ Gated c cfg := by
  have horigin : ¬ (c.origin = .untrusted ∨ c.origin = .system) ↔ c.origin = .owner ∨ c.origin = .agent := by
    cases c.origin <;> simp
  unfold gateCheck
  constructor
  · intro h
    split_ifs at h with htier hor himp huse hrec hold
    exact ⟨not_not.1 htier, horigin.1 hor, not_lt.1 himp, not_lt.1 huse, not_lt.1 hrec,
      fun hmax => not_lt.1 fun hlt => hold ⟨hmax, hlt⟩⟩
  · rintro ⟨htier, hor, himp, huse, hrec, hold⟩
    rw [if_neg (not_not.2 htier), if_neg (horigin.2 hor), if_neg (not_lt.2 himp), if_neg (not_lt.2 huse),
      if_neg (not_lt.2 hrec), if_neg fun h => not_lt.2 (hold h.1) h.2]

theorem length_dreamingGate (fl : ℚ → ℚ) (cands : List DreamCandidate) (cfg : DreamCfg) :
    (dreamingGate fl cands cfg).length ≤ cfg.maxConsolidations := List.length_take_le _ _

/-- Who is let through has passed the gates. -/
theorem gated_of_dreamingGate {fl : ℚ → ℚ} {cands : List DreamCandidate} {cfg : DreamCfg} {k : Consolidation}
    (h : k ∈ dreamingGate fl cands cfg) : ∃ c ∈ cands, Gated c cfg ∧ k = { id := c.id, priority := fl (c.importance * c.useCount) } := by
  have hmem := List.mem_of_mem_take h
  rw [List.mem_insertionSort] at hmem
  obtain ⟨c, hc, rfl⟩ := List.mem_map.1 hmem
  obtain ⟨hc, hgate⟩ := List.mem_filter.1 hc
  exact ⟨c, hc, (gateCheck_eq_none_iff c cfg).1 (of_decide_eq_true hgate), rfl⟩

/-- Who passes the gates and is not let through has as many before it as there is room for, none of them
of lower priority. -/
theorem dreamingGate_full {fl : ℚ → ℚ} {cands : List DreamCandidate} {cfg : DreamCfg} {c : DreamCandidate}
    (hc : c ∈ cands) (hgated : Gated c cfg)
    (hout : { id := c.id, priority := fl (c.importance * c.useCount) } ∉ dreamingGate fl cands cfg) :
    (dreamingGate fl cands cfg).length = cfg.maxConsolidations ∧
      ∀ k ∈ dreamingGate fl cands cfg, fl (c.importance * c.useCount) ≤ k.priority := by
  unfold dreamingGate at hout ⊢
  simp only at hout ⊢
  generalize hpassed : ((cands.filter fun c => gateCheck c cfg = none).map fun c =>
    { id := c.id, priority := fl (c.importance * c.useCount) : Consolidation }) = passed at hout ⊢
  have hmem : ({ id := c.id, priority := fl (c.importance * c.useCount) } : Consolidation) ∈
      passed.insertionSort fun a b => b.priority ≤ a.priority := by
    rw [List.mem_insertionSort, ← hpassed]
    exact List.mem_map.2
      ⟨c, List.mem_filter.2 ⟨hc, decide_eq_true ((gateCheck_eq_none_iff c cfg).2 hgated)⟩, rfl⟩
  have hsorted := List.pairwise_insertionSort (fun a b : Consolidation => b.priority ≤ a.priority) passed
  rw [← List.take_append_drop cfg.maxConsolidations (passed.insertionSort _), List.mem_append] at hmem
  have hdrop := hmem.resolve_left hout
  constructor
  · rw [List.length_take]
    have hpos := List.length_pos_of_mem hdrop
    rw [List.length_drop] at hpos
    omega
  · intro k hk
    rw [← List.take_append_drop cfg.maxConsolidations (passed.insertionSort _), List.pairwise_append] at hsorted
    exact hsorted.2.2 k hk _ hdrop

end OhMyClaw
