import Mathlib.Data.List.Induction

/-!
# What a ledger holds under a key

A ledger is a list of records, each a key and a value, written one behind the other.

    Ledger.under k log       the values recorded under `k`, in order
    pairwise_snoc            a transitive relation holds along a list that grows at its end as soon
                             as it holds between the last value and the new one
-/

namespace Ledger

variable {κ τ : Type*} [DecidableEq κ]

def under (k : κ) (log : List (κ × τ)) : List τ := (log.filter (·.1 = k)).map (·.2)

@[simp] theorem under_nil (k : κ) : under k ([] : List (κ × τ)) = [] := rfl

theorem under_snoc_self (k : κ) (log : List (κ × τ)) (v : τ) : under k (log ++ [(k, v)]) = under k log ++ [v] := by
  simp [under]

theorem under_snoc_ne {k k' : κ} (h : k' ≠ k) (log : List (κ × τ)) (v : τ) :
    under k (log ++ [(k', v)]) = under k log := by
  simp [under, h]

theorem mem_under {k : κ} {log : List (κ × τ)} {v : τ} : v ∈ under k log ↔ (k, v) ∈ log := by
  simp [under]

theorem under_eq_nil {k : κ} {log : List (κ × τ)} (h : ∀ p ∈ log, p.1 ≠ k) : under k log = [] := by
  simpa [under] using h

/-- A transitive relation along a list and from its last value on. -/
theorem pairwise_snoc {R : τ → τ → Prop} (hR : ∀ a b c, R a b → R b c → R a c) {vs : List τ} {v : τ}
    (h : vs.Pairwise R) (hlast : ∀ l ∈ vs.getLast?, R l v) : (vs ++ [v]).Pairwise R := by
  refine List.pairwise_append.2 ⟨h, List.pairwise_singleton R v, fun a ha b hb => ?_⟩
  obtain rfl := List.mem_singleton.1 hb
  induction vs using List.reverseRecOn with
  | nil => simp at ha
  | append_singleton vs l ih =>
    have hl : R l b := hlast l (by simp)
    rw [List.mem_append, List.mem_singleton] at ha
    rcases ha with ha | rfl
    · have hal : R a l := (List.pairwise_append.1 h).2.2 a ha l (List.mem_singleton.2 rfl)
      exact hR a l b hal hl
    · exact hl

end Ledger
