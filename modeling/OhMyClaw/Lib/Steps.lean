import Mathlib.Data.List.Basic

/-!
# Runs of a step function

A system is given by `step : σ → α → Option σ`: in state `s` the action `a` is
either refused (`none`) or leads to one next state.  Interleaving lives in the
list of actions, so a statement about every list of actions is a statement about
every schedule.

    exec step s as = some t              the actions `as` lead from `s` to `t`
    AllSteps step R s as                 every step taken satisfies `R before action after`
    AllStates step P s as                every state visited, the first included, satisfies `P`

The rules: what one step preserves a run preserves (`exec_invariant`), also when
the steps are known to satisfy a side condition (`exec_guarded`); and a property of
the states visited is a condition on the steps taken as soon as each single step
decides it (`allStates_iff_allSteps`).

    collect step f s as                  what `f` makes of each step, one after the other

An invariant may speak of what was collected so far (`collect_invariant`).  A natural number
that every step keeps or lowers bounds the steps that lower it (`collect_lowering`), and an endless
schedule that goes on lowering it must end (`reaches_of_lowering`).
-/

namespace Steps

universe u v

variable {σ : Type u} {α : Type v}

/-- Take the actions in order; `none` as soon as one of them is refused. -/
def exec (step : σ → α → Option σ) : σ → List α → Option σ
  | s, [] => some s
  | s, a :: as =>
    match step s a with
    | some t => exec step t as
    | none => none

/-- Every step the run takes satisfies `R`. -/
def AllSteps (step : σ → α → Option σ) (R : σ → α → σ → Prop) : σ → List α → Prop
  | _, [] => True
  | s, a :: as => ∀ t, step s a = some t → R s a t ∧ AllSteps step R t as

/-- Every state the run visits satisfies `P`. -/
def AllStates (step : σ → α → Option σ) (P : σ → Prop) (s : σ) (as : List α) : Prop :=
  P s ∧ AllSteps step (fun _ _ t => P t) s as

variable {step : σ → α → Option σ}

/-! ## Runs -/

@[simp] theorem exec_nil (s : σ) : exec step s [] = some s := rfl

theorem exec_cons_some {s t : σ} {a : α} {as : List α} (h : step s a = some t) :
    exec step s (a :: as) = exec step t as := by
  simp only [exec, h]

theorem exec_cons_eq_some {s u : σ} {a : α} {as : List α} :
    exec step s (a :: as) = some u ↔ ∃ t, step s a = some t ∧ exec step t as = some u := by
  cases h : step s a with
  | none => simp [exec, h]
  | some t => simp [exec, h]

theorem exec_append (s : σ) (as bs : List α) :
    exec step s (as ++ bs) = (exec step s as).bind fun t => exec step t bs := by
  induction as generalizing s with
  | nil => rfl
  | cons a as ih =>
    cases h : step s a with
    | none => simp [exec, h]
    | some t => simp [exec, h, ih]

theorem exec_append_eq_some {s u : σ} {as bs : List α} :
    exec step s (as ++ bs) = some u ↔ ∃ t, exec step s as = some t ∧ exec step t bs = some u := by
  rw [exec_append, Option.bind_eq_some_iff]

/-! ## Steps along a run -/

theorem AllSteps.nil {R : σ → α → σ → Prop} (s : σ) : AllSteps step R s [] := trivial

theorem AllSteps.mono {R R' : σ → α → σ → Prop} (hR : ∀ s a t, step s a = some t → R s a t → R' s a t)
    {s : σ} {as : List α} (h : AllSteps step R s as) : AllSteps step R' s as := by
  induction as generalizing s with
  | nil => trivial
  | cons a as ih =>
    intro t ht
    obtain ⟨hr, hrest⟩ := h t ht
    exact ⟨hR s a t ht hr, ih hrest⟩

theorem AllSteps.of_forall {R : σ → α → σ → Prop} (hR : ∀ s a t, step s a = some t → R s a t)
    (s : σ) (as : List α) : AllSteps step R s as := by
  induction as generalizing s with
  | nil => trivial
  | cons a as ih =>
    intro t ht
    exact ⟨hR s a t ht, ih t⟩

/-- A condition on the actions alone. -/
theorem AllSteps.of_mem {P : α → Prop} {as : List α} (h : ∀ a ∈ as, P a) (s : σ) :
    AllSteps step (fun _ a _ => P a) s as := by
  induction as generalizing s with
  | nil => trivial
  | cons a as ih =>
    intro t _
    exact ⟨h a List.mem_cons_self, ih (fun b hb => h b (List.mem_cons_of_mem _ hb)) t⟩

theorem allSteps_append {R : σ → α → σ → Prop} {s t : σ} {as bs : List α}
    (hrun : exec step s as = some t) :
    AllSteps step R s (as ++ bs) ↔ AllSteps step R s as ∧ AllSteps step R t bs := by
  induction as generalizing s with
  | nil =>
    obtain rfl : s = t := by simpa using hrun
    simp [AllSteps]
  | cons a as ih =>
    obtain ⟨u, hu, hrest⟩ := exec_cons_eq_some.1 hrun
    simp only [List.cons_append, AllSteps]
    constructor
    · intro h
      refine ⟨fun v hv => ?_, ?_⟩
      · obtain rfl : u = v := by simpa [hu] using hv
        exact ⟨(h u hu).1, ((ih hrest).1 (h u hu).2).1⟩
      · exact ((ih hrest).1 (h u hu).2).2
    · rintro ⟨h, hbs⟩ v hv
      obtain rfl : u = v := by simpa [hu] using hv
      exact ⟨(h u hu).1, (ih hrest).2 ⟨(h u hu).2, hbs⟩⟩

/-- A condition on steps that can be decided can be decided along a run. -/
instance decidableAllSteps {R : σ → α → σ → Prop} [∀ s a t, Decidable (R s a t)] :
    ∀ (s : σ) (as : List α), Decidable (AllSteps step R s as)
  | _, [] => isTrue trivial
  | s, a :: as =>
    match h : step s a with
    | none => isTrue fun t ht => by simp [h] at ht
    | some t =>
      have : Decidable (AllSteps step R t as) := decidableAllSteps t as
      decidable_of_iff (R s a t ∧ AllSteps step R t as)
        ⟨fun hr u hu => Option.some.inj (h.symm.trans hu) ▸ hr, fun hall => hall t h⟩

/-- `AllSteps` says what its name says: `R` holds of every step, wherever the run is cut. -/
theorem allSteps_iff {R : σ → α → σ → Prop} {s : σ} {as : List α} :
    AllSteps step R s as ↔ ∀ early a late t u, as = early ++ a :: late →
      exec step s early = some t → step t a = some u → R t a u := by
  constructor
  · rintro h early a late t u rfl hrun hu
    exact (((allSteps_append hrun).1 h).2 u hu).1
  · intro h
    induction as generalizing s with
    | nil => trivial
    | cons a as ih =>
      intro t ht
      refine ⟨h [] a as s t rfl rfl ht, ih ?_⟩
      intro early b late u v has hrun hv
      exact h (a :: early) b late u v (by rw [has, List.cons_append])
        ((exec_cons_some ht).trans hrun) hv

theorem AllSteps.and {R R' : σ → α → σ → Prop} {s : σ} {as : List α} (h : AllSteps step R s as)
    (h' : AllSteps step R' s as) : AllSteps step (fun s a t => R s a t ∧ R' s a t) s as := by
  induction as generalizing s with
  | nil => trivial
  | cons a as ih =>
    intro t ht
    exact ⟨⟨(h t ht).1, (h' t ht).1⟩, ih (h t ht).2 (h' t ht).2⟩

/-! ## Invariants -/

/-- What holds at the start and is preserved by every step that satisfies the side
condition `R` holds at the end of every run whose steps all satisfy it. -/
theorem exec_guarded {I : σ → Prop} {R : σ → α → σ → Prop}
    (hstep : ∀ s a t, I s → R s a t → step s a = some t → I t)
    {s t : σ} {as : List α} (hI : I s) (hR : AllSteps step R s as)
    (hrun : exec step s as = some t) : I t := by
  induction as generalizing s with
  | nil =>
    obtain rfl : s = t := by simpa using hrun
    exact hI
  | cons a as ih =>
    obtain ⟨u, hu, hrest⟩ := exec_cons_eq_some.1 hrun
    obtain ⟨hr, hR'⟩ := hR u hu
    exact ih (hstep s a u hI hr hu) hR' hrest

/-- What holds at the start, and is preserved by every step that satisfies the side condition, can be used at every
step. -/
theorem AllSteps.guarded {I : σ → Prop} {R R' : σ → α → σ → Prop}
    (hstep : ∀ s a t, I s → R s a t → step s a = some t → I t ∧ R' s a t)
    {s : σ} {as : List α} (hI : I s) (hR : AllSteps step R s as) : AllSteps step R' s as := by
  induction as generalizing s with
  | nil => trivial
  | cons a as ih =>
    intro t ht
    obtain ⟨hr, hrest⟩ := hR t ht
    obtain ⟨hI', hr'⟩ := hstep s a t hI hr ht
    exact ⟨hr', ih hI' hrest⟩

/-- What holds at the start and is preserved by every step holds at the end of every run. -/
theorem exec_invariant {I : σ → Prop} (hstep : ∀ s a t, I s → step s a = some t → I t)
    {s t : σ} {as : List α} (hI : I s) (hrun : exec step s as = some t) : I t :=
  exec_guarded (R := fun _ _ _ => True) (fun s a t h _ => hstep s a t h) hI
    (AllSteps.of_forall (fun _ _ _ _ => trivial) s as) hrun

/-- Under an invariant, two conditions on steps that agree on every step the system
can take agree along every run. -/
theorem allSteps_congr {I : σ → Prop} {R R' : σ → α → σ → Prop}
    (hstep : ∀ s a t, I s → step s a = some t → I t)
    (hRR : ∀ s a t, I s → step s a = some t → (R s a t ↔ R' s a t))
    {s : σ} (hI : I s) (as : List α) : AllSteps step R s as ↔ AllSteps step R' s as := by
  induction as generalizing s with
  | nil => exact Iff.rfl
  | cons a as ih =>
    constructor
    · intro h t ht
      obtain ⟨hr, hrest⟩ := h t ht
      exact ⟨(hRR s a t hI ht).1 hr, (ih (hstep s a t hI ht)).1 hrest⟩
    · intro h t ht
      obtain ⟨hr, hrest⟩ := h t ht
      exact ⟨(hRR s a t hI ht).2 hr, (ih (hstep s a t hI ht)).2 hrest⟩

/-! ## States along a run -/

/-- `AllStates` says what its name says: `P` holds after every initial part of the run. -/
theorem allStates_iff {P : σ → Prop} {s : σ} {as : List α} :
    AllStates step P s as ↔ ∀ pre t, pre <+: as → exec step s pre = some t → P t := by
  constructor
  · rintro ⟨hs, hall⟩ pre t ⟨suf, rfl⟩ hrun
    have hpre := ((allSteps_append hrun).1 hall).1
    exact exec_guarded (I := P) (fun _ _ _ _ h _ => h) hs hpre hrun
  · intro h
    refine ⟨h [] s (List.nil_prefix) rfl, ?_⟩
    induction as generalizing s with
    | nil => trivial
    | cons a as ih =>
      intro t ht
      refine ⟨h [a] t ⟨as, rfl⟩ (exec_cons_some ht), ih ?_⟩
      rintro pre u ⟨suf, rfl⟩ hrun
      exact h (a :: pre) u ⟨suf, rfl⟩ ((exec_cons_some ht).trans hrun)

/-- What an invariant implies holds in every state of a run whose steps satisfy the side
condition that keeps the invariant. -/
theorem allStates_of_guarded {I P : σ → Prop} {R : σ → α → σ → Prop}
    (hstep : ∀ s a t, I s → R s a t → step s a = some t → I t) (hP : ∀ s, I s → P s)
    {s : σ} {as : List α} (hI : I s) (hR : AllSteps step R s as) : AllStates step P s as := by
  rw [allStates_iff]
  rintro pre t ⟨suf, rfl⟩ hrun
  exact hP t (exec_guarded hstep hI ((allSteps_append hrun).1 hR).1 hrun)

/-- If, under the invariant `I`, a step out of a good state leads to a good state exactly
when it satisfies `R`, then a run visits good states only exactly when all its steps
satisfy `R`. -/
theorem allStates_iff_allSteps {I P : σ → Prop} {R : σ → α → σ → Prop}
    (hinv : ∀ s a t, I s → step s a = some t → I t)
    (hstep : ∀ s a t, I s → P s → step s a = some t → (P t ↔ R s a t))
    {s : σ} (hI : I s) (hP : P s) (as : List α) :
    AllStates step P s as ↔ AllSteps step R s as := by
  induction as generalizing s with
  | nil => simp [AllStates, AllSteps, hP]
  | cons a as ih =>
    constructor
    · rintro ⟨_, hall⟩ t ht
      obtain ⟨hPt, hrest⟩ := hall t ht
      exact ⟨(hstep s a t hI hP ht).1 hPt, (ih (hinv s a t hI ht) hPt).1 ⟨hPt, hrest⟩⟩
    · intro hall
      refine ⟨hP, fun t ht => ?_⟩
      obtain ⟨hR, hrest⟩ := hall t ht
      have hPt := (hstep s a t hI hP ht).2 hR
      exact ⟨hPt, ((ih (hinv s a t hI ht) hPt).2 hrest).2⟩

/-! ## What the steps give -/

/-- What `f` makes of the steps of a run, one after the other. -/
def collect {β : Type*} (step : σ → α → Option σ) (f : σ → α → σ → List β) : σ → List α → List β
  | _, [] => []
  | s, a :: as =>
    match step s a with
    | some t => f s a t ++ collect step f t as
    | none => []

theorem collect_cons_some {β : Type*} {f : σ → α → σ → List β} {s t : σ} {a : α} {as : List α}
    (h : step s a = some t) : collect step f s (a :: as) = f s a t ++ collect step f t as := by
  simp only [collect, h]

theorem collect_append {β : Type*} {f : σ → α → σ → List β} {s t : σ} {as bs : List α}
    (hrun : exec step s as = some t) :
    collect step f s (as ++ bs) = collect step f s as ++ collect step f t bs := by
  induction as generalizing s with
  | nil =>
    obtain rfl : s = t := by simpa using hrun
    rfl
  | cons a as ih =>
    obtain ⟨u, hu, hrest⟩ := exec_cons_eq_some.1 hrun
    rw [List.cons_append, collect_cons_some hu, collect_cons_some hu, ih hrest, List.append_assoc]

/-- An invariant of the state and of what has been collected on the way to it. -/
theorem collect_invariant {β : Type*} {f : σ → α → σ → List β} {I : List β → σ → Prop}
    (hstep : ∀ h s a t, I h s → step s a = some t → I (h ++ f s a t) t)
    {h : List β} {s t : σ} {as : List α} (hI : I h s) (hrun : exec step s as = some t) :
    I (h ++ collect step f s as) t := by
  induction as generalizing h s with
  | nil =>
    obtain rfl : s = t := by simpa using hrun
    simpa [collect] using hI
  | cons a as ih =>
    obtain ⟨u, hu, hrest⟩ := exec_cons_eq_some.1 hrun
    rw [collect_cons_some hu, ← List.append_assoc]
    exact ih (hstep h s a u hI hu) hrest

/-! ## A number that goes down -/

/-- The steps of a run that are not just waiting. -/
def moves (step : σ → α → Option σ) (stays : σ → α → Bool) : σ → List α → List α :=
  collect step fun s a _ => if stays s a then [] else [a]

section Lowering

variable {Φ : σ → Nat} {stays : σ → α → Bool}
  (hstep : ∀ s a t, step s a = some t → Φ t + (if stays s a then 0 else 1) ≤ Φ s)

include hstep

/-- What each move lowers bounds the moves. -/
theorem collect_lowering {s t : σ} {as : List α} (hrun : exec step s as = some t) :
    Φ t + (moves step stays s as).length ≤ Φ s := by
  induction as generalizing s with
  | nil =>
    obtain rfl : s = t := by simpa using hrun
    simp [moves, collect]
  | cons a as ih =>
    obtain ⟨u, hu, hrest⟩ := exec_cons_eq_some.1 hrun
    have hfirst := hstep s a u hu
    have hlater := ih hrest
    unfold moves at hlater ⊢
    rw [collect_cons_some hu, List.length_append]
    by_cases hstays : stays s a = true
    · rw [if_pos hstays] at hfirst
      rw [if_pos hstays, List.length_nil]
      omega
    · rw [if_neg hstays] at hfirst
      rw [if_neg hstays, List.length_singleton]
      omega

/-- A schedule that is never refused before the end, and never stays for good, gets to the end. -/
theorem reaches_of_lowering {Done : σ → Prop} {s : σ} (schedule : Nat → α)
    (haccepted : ∀ n t, exec step s ((List.range n).map schedule) = some t → ¬ Done t →
      ∃ u, step t (schedule n) = some u)
    (hmoves : ∀ n, ∃ m, n ≤ m ∧ ∀ t, exec step s ((List.range m).map schedule) = some t →
      stays t (schedule m) = false) :
    ∃ n t, exec step s ((List.range n).map schedule) = some t ∧ Done t := by
  by_contra hnever
  have hrange (n : Nat) :
      (List.range (n + 1)).map schedule = (List.range n).map schedule ++ [schedule n] := by
    rw [List.range_succ, List.map_append]
    rfl
  have hon : ∀ n, ∃ t, exec step s ((List.range n).map schedule) = some t := by
    intro n
    induction n with
    | zero => exact ⟨s, rfl⟩
    | succ n ih =>
      obtain ⟨t, ht⟩ := ih
      obtain ⟨u, hu⟩ := haccepted n t ht fun hdone => hnever ⟨n, t, ht, hdone⟩
      refine ⟨u, ?_⟩
      rw [hrange, exec_append_eq_some]
      exact ⟨t, ht, by rw [exec_cons_some hu, exec_nil]⟩
  -- Every further move of the schedule adds one to the moves made.
  have hmany : ∀ k, ∃ n, k ≤ (moves step stays s ((List.range n).map schedule)).length := by
    intro k
    induction k with
    | zero => exact ⟨0, Nat.zero_le _⟩
    | succ k ih =>
      obtain ⟨n, hn⟩ := ih
      obtain ⟨m, hnm, hmove⟩ := hmoves n
      obtain ⟨t, ht⟩ := hon m
      obtain ⟨u, hu⟩ := haccepted m t ht fun hdone => hnever ⟨m, t, ht, hdone⟩
      refine ⟨m + 1, ?_⟩
      have hlast : moves step stays s ((List.range (m + 1)).map schedule) =
          moves step stays s ((List.range m).map schedule) ++ [schedule m] := by
        rw [hrange]
        unfold moves
        rw [collect_append ht, collect_cons_some hu, if_neg (by simp [hmove t ht])]
        rfl
      have hearly : (moves step stays s ((List.range n).map schedule)).length ≤
          (moves step stays s ((List.range m).map schedule)).length := by
        obtain ⟨d, rfl⟩ := Nat.le.dest hnm
        obtain ⟨v, hv⟩ := hon n
        rw [List.range_add, List.map_append]
        unfold moves
        rw [collect_append hv, List.length_append]
        exact Nat.le_add_right _ _
      rw [hlast, List.length_append, List.length_singleton]
      omega
  obtain ⟨n, hn⟩ := hmany (Φ s + 1)
  obtain ⟨t, ht⟩ := hon n
  have hbound := collect_lowering hstep ht
  omega

end Lowering

end Steps
