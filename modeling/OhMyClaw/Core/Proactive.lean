import Mathlib.Data.List.Basic

/-!
# When to speak unasked

The pure rules of proactive behaviour: whether a standing intent may fire and which entries are due.
Times are seconds of the clock, far from the bounds of their 64 bits.
-/

namespace OhMyClaw

structure NagCfg where
  cooldownSecs : Int
  budget : UInt32
  /-- 0 for no expiry. -/
  expirySecs : Int
deriving DecidableEq, Repr

def NagCfg.default : NagCfg := { cooldownSecs := 24 * 3600, budget := 3, expirySecs := 90 * 86400 }

structure IntentState where
  createdSecs : Int
  lastFiredSecs : Option Int
  firedCount : UInt32
deriving DecidableEq, Repr

inductive DenyReason where
  | cooldown | budgetExhausted | expired
deriving DecidableEq, Repr

inductive FireDecision where
  | allow
  | deny (reason : DenyReason)
deriving DecidableEq, Repr

/-- Expiry first, then the budget, then the cooldown. -/
def allowFire (state : IntentState) (nowSecs : Int) (cfg : NagCfg) : FireDecision :=
  if 0 < cfg.expirySecs ∧ cfg.expirySecs < nowSecs - state.createdSecs then .deny .expired
  else if cfg.budget ≤ state.firedCount then .deny .budgetExhausted
  else
    match state.lastFiredSecs with
    | some last => if nowSecs - last < cfg.cooldownSecs then .deny .cooldown else .allow
    | none => .allow

/-- What an allowed fire keeps to. -/
theorem allowFire_eq_allow {state : IntentState} {nowSecs : Int} {cfg : NagCfg} :
    allowFire state nowSecs cfg = .allow ↔
      (cfg.expirySecs ≤ 0 ∨ nowSecs - state.createdSecs ≤ cfg.expirySecs) ∧
        state.firedCount < cfg.budget ∧
        ∀ last ∈ state.lastFiredSecs, cfg.cooldownSecs ≤ nowSecs - last := by
  unfold allowFire
  split
  · next hexpired =>
    simp only [reduceCtorEq, false_iff]
    rintro ⟨h, -⟩
    omega
  · next hexpired =>
    split
    · next hbudget =>
      simp only [reduceCtorEq, false_iff]
      rintro ⟨-, h, -⟩
      exact absurd hbudget (UInt32.not_le.2 h)
    · next hbudget =>
      have hexpiry : cfg.expirySecs ≤ 0 ∨ nowSecs - state.createdSecs ≤ cfg.expirySecs := by omega
      have hleft : state.firedCount < cfg.budget := UInt32.not_le.1 hbudget
      cases hlast : state.lastFiredSecs with
      | none => exact ⟨fun _ => ⟨hexpiry, hleft, by simp⟩, fun _ => rfl⟩
      | some last =>
        simp only
        split
        · next hcool =>
          simp only [reduceCtorEq, false_iff]
          rintro ⟨-, -, h⟩
          have hle := h last rfl
          omega
        · next hcool =>
          have hle : cfg.cooldownSecs ≤ nowSecs - last := by omega
          refine ⟨fun _ => ⟨hexpiry, hleft, fun l hl => ?_⟩, fun _ => rfl⟩
          rwa [← Option.some.inj hl]

/-- The entries whose time has come; one without a time is not due. -/
def evalDue {α : Type*} (entries : List (α × Option Int)) (nowSecs : Int) : List α :=
  entries.filterMap fun e =>
    match e.2 with
    | some t => if t ≤ nowSecs then some e.1 else none
    | none => none

theorem mem_evalDue {α : Type*} {entries : List (α × Option Int)} {nowSecs : Int} {id : α} :
    id ∈ evalDue entries nowSecs ↔ ∃ t, (id, some t) ∈ entries ∧ t ≤ nowSecs := by
  unfold evalDue
  rw [List.mem_filterMap]
  constructor
  · rintro ⟨⟨id', nextAt⟩, hin, h⟩
    cases nextAt with
    | none => simp at h
    | some t =>
      simp only [Option.ite_none_right_eq_some, Option.some.injEq] at h
      exact ⟨t, h.2 ▸ hin, h.1⟩
  · rintro ⟨t, hin, ht⟩
    exact ⟨(id, some t), hin, by simp [ht]⟩

/-- No entry is due twice. -/
theorem evalDue_sublist {α : Type*} (entries : List (α × Option Int)) (nowSecs : Int) :
    (evalDue entries nowSecs).Sublist (entries.map (·.1)) := by
  induction entries with
  | nil => exact List.Sublist.refl _
  | cons e entries ih =>
    obtain ⟨id, nextAt⟩ := e
    have hskip : (evalDue entries nowSecs).Sublist (((id, nextAt) :: entries).map (·.1)) := ih.cons id
    have hkeep : (id :: evalDue entries nowSecs).Sublist (((id, nextAt) :: entries).map (·.1)) := ih.cons_cons id
    cases nextAt with
    | none => exact hskip
    | some t =>
      by_cases ht : t ≤ nowSecs
      · have hdue : evalDue ((id, some t) :: entries) nowSecs = id :: evalDue entries nowSecs := by
          simp [evalDue, ht]
        rw [hdue]
        exact hkeep
      · have hdue : evalDue ((id, some t) :: entries) nowSecs = evalDue entries nowSecs := by
          simp [evalDue, ht]
        rw [hdue]
        exact hskip

end OhMyClaw
