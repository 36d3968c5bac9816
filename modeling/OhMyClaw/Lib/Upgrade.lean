import Mathlib.Data.List.Induction
import OhMyClaw.Lib.Steps

/-!
# Upgrading a store that others open too

A store says what version it is of.  Whoever opens it reads the version and then raises it to the version it
knows, one transaction for each version in between.  The version is read outside of the transactions, so two
openers can be after the same step; what the one has done makes the transaction of the other fail.

    Plan            the versions, the transactions, the writes of whoever uses the store
    Plan.step       an opener opens, goes on, meets a fault or dies; something is written
    Plan.run        what one opener does that is alone (`alone`)
    Lawful          what the transactions have to do for it

For a lawful plan, in every order of steps: the version rises and the store fits it, what is to be read is what the
writes alone have made (`kept`, `rising`); of openers that meet no fault one arrives, and none arrives before the store
is of its version (`arrives`); who has failed without a fault was overtaken by another one (`overtaken`); each opener is
through after as many steps as there are versions (`goes_le`).
-/

namespace Upgrade

universe u v w x

variable {σ : Type u} {β : Type v} {ε : Type w} {γ : Type x}

structure Plan (σ : Type u) (β : Type v) (ε : Type w) where
  target : Nat
  /-- The version a store says it is of. -/
  version : σ → Nat
  /-- The transaction that leads to a version. -/
  upgrade : Nat → σ → Except ε σ
  write : β → σ → Option σ
  tooNew : Nat → ε
  fault : ε

inductive Opener (ε : Type w) where
  /-- Has opened the store, and not yet read its version. -/
  | fresh
  /-- In the loop, with the version it takes the store to be of. -/
  | at (current : Nat)
  | done
  | failed (e : ε)
  /-- Its process has died. -/
  | gone
deriving DecidableEq, Repr

def Opener.ended : Opener ε → Bool
  | .fresh | .at _ => false
  | .done | .failed _ | .gone => true

structure World (σ : Type u) (ε : Type w) where
  store : σ
  openers : List (Opener ε)

inductive Act (β : Type v) where
  | open
  | go (i : Nat)
  /-- The next statement of an opener fails, and a transaction it has begun is rolled back. -/
  | fault (i : Nat)
  /-- A process dies, which rolls back the transaction it has begun. -/
  | crash (i : Nat)
  | write (b : β)

namespace Plan

variable (P : Plan σ β ε)

def enter (current : Nat) : Opener ε :=
  if current < P.target then .at current else .done

/-- What an opener does next, if nothing goes wrong. -/
def next (s : σ) : Opener ε → Option (σ × Opener ε)
  | .fresh =>
    some (s, if P.target < P.version s then .failed (P.tooNew (P.version s)) else P.enter (P.version s))
  | .at c =>
    match P.upgrade (c + 1) s with
    | .ok s' => some (s', P.enter (c + 1))
    | .error e => some (s, .failed e)
  | .done | .failed _ | .gone => none

/-- The loop of an opener that is alone, with as many turns as are left. -/
def turns : Nat → σ → Except ε σ
  | 0, s => .ok s
  | n + 1, s => (P.upgrade (P.target - n) s).bind (turns n)

/-- What an opener does that is alone. -/
def run (s : σ) : Except ε σ :=
  if P.target < P.version s then .error (P.tooNew (P.version s)) else P.turns (P.target - P.version s) s

def step (w : World σ ε) : Act β → Option (World σ ε)
  | .open => some { w with openers := w.openers ++ [.fresh] }
  | .go i =>
    (w.openers[i]?).bind fun o =>
      (P.next w.store o).map fun (s, o') => { store := s, openers := w.openers.set i o' }
  | .fault i =>
    (w.openers[i]?).bind fun o =>
      if o.ended then none else some { w with openers := w.openers.set i (.failed P.fault) }
  | .crash i =>
    (w.openers[i]?).bind fun o => if o.ended then none else some { w with openers := w.openers.set i .gone }
  | .write b => (P.write b w.store).map fun s => { w with store := s }

end Plan

def start (s : σ) : World σ ε := { store := s, openers := [] }

def Act.written : Act β → Option β
  | .write b => some b
  | _ => none

/-- A step of an opener that meets no fault, or a write. -/
def Act.calm : Act β → Bool
  | .fault _ | .crash _ => false
  | .open | .go _ | .write _ => true

/-- A step of the opener `i`. -/
def Act.goes (i : Nat) : Act β → Bool
  | .go j => j = i
  | _ => false

/-- What the transactions have to do: from a store that fits its version the next one leads to a store that fits
the next, where the same is to be read; one that has been done already fails. -/
structure Lawful (P : Plan σ β ε) (Fits : σ → Prop) (view : σ → γ) (apply : γ → β → γ) : Prop where
  known : ∀ s, Fits s → P.version s ≤ P.target
  raise : ∀ s, Fits s → P.version s < P.target →
    ∃ s', P.upgrade (P.version s + 1) s = .ok s' ∧ Fits s' ∧ P.version s' = P.version s + 1 ∧ view s' = view s
  stale : ∀ s c, Fits s → c < P.version s → ∃ e, P.upgrade (c + 1) s = .error e
  write : ∀ s b s', Fits s → P.write b s = some s' →
    Fits s' ∧ P.version s' = P.version s ∧ view s' = apply (view s) b

section Steps

variable {P : Plan σ β ε} {w w' : World σ ε} {a : Act β}

/-- What a step can do. -/
theorem step_cases (h : P.step w a = some w') :
    (a = .open ∧ w' = { w with openers := w.openers ++ [.fresh] }) ∨
    (∃ i o s o', a = .go i ∧ w.openers[i]? = some o ∧ P.next w.store o = some (s, o') ∧
      w' = { store := s, openers := w.openers.set i o' }) ∨
    (∃ i o o', (a = .fault i ∧ o' = .failed P.fault ∨ a = .crash i ∧ o' = .gone) ∧ w.openers[i]? = some o ∧
      o.ended = false ∧ w' = { w with openers := w.openers.set i o' }) ∨
    ∃ b s, a = .write b ∧ P.write b w.store = some s ∧ w' = { w with store := s } := by
  cases a with
  | «open» => exact .inl ⟨rfl, (Option.some.inj h).symm⟩
  | go i =>
    obtain ⟨o, ho, h⟩ := Option.bind_eq_some_iff.1 h
    obtain ⟨⟨s, o'⟩, hnext, h⟩ := Option.map_eq_some_iff.1 h
    exact .inr (.inl ⟨i, o, s, o', rfl, ho, hnext, h.symm⟩)
  | fault i =>
    obtain ⟨o, ho, h⟩ := Option.bind_eq_some_iff.1 h
    simp only [Option.ite_none_left_eq_some, Option.some.injEq, Bool.not_eq_true] at h
    exact .inr (.inr (.inl ⟨i, o, _, .inl ⟨rfl, rfl⟩, ho, h.1, h.2.symm⟩))
  | crash i =>
    obtain ⟨o, ho, h⟩ := Option.bind_eq_some_iff.1 h
    simp only [Option.ite_none_left_eq_some, Option.some.injEq, Bool.not_eq_true] at h
    exact .inr (.inr (.inl ⟨i, o, _, .inr ⟨rfl, rfl⟩, ho, h.1, h.2.symm⟩))
  | write b =>
    obtain ⟨s, hs, h⟩ := Option.map_eq_some_iff.1 h
    exact .inr (.inr (.inr ⟨b, s, rfl, hs, h.symm⟩))

/-- What an opener can do, if nothing goes wrong. -/
theorem next_cases {s s' : σ} {o o' : Opener ε} (h : P.next s o = some (s', o')) :
    (o = .fresh ∧ s' = s ∧
      ((P.target < P.version s ∧ o' = .failed (P.tooNew (P.version s))) ∨
        (P.version s ≤ P.target ∧ o' = P.enter (P.version s)))) ∨
    (∃ c, o = .at c ∧ P.upgrade (c + 1) s = .ok s' ∧ o' = P.enter (c + 1)) ∨
    ∃ c e, o = .at c ∧ P.upgrade (c + 1) s = .error e ∧ s' = s ∧ o' = .failed e := by
  cases o with
  | fresh =>
    simp only [Plan.next, Option.some.injEq, Prod.mk.injEq] at h
    obtain ⟨rfl, rfl⟩ := h
    refine .inl ⟨rfl, rfl, ?_⟩
    split
    · next hlt => exact .inl ⟨hlt, rfl⟩
    · next hle => exact .inr ⟨Nat.le_of_not_lt hle, rfl⟩
  | «at» c =>
    simp only [Plan.next] at h
    split at h
    · next s₁ hok =>
      obtain ⟨rfl, rfl⟩ := Prod.mk.inj (Option.some.inj h)
      exact .inr (.inl ⟨c, rfl, hok, rfl⟩)
    · next e herr =>
      obtain ⟨rfl, rfl⟩ := Prod.mk.inj (Option.some.inj h)
      exact .inr (.inr ⟨c, e, rfl, herr, rfl, rfl⟩)
  | done | failed _ | gone => cases h

/-- An opener that has not ended can go on. -/
theorem go_isSome {i : Nat} {o : Opener ε} (hi : w.openers[i]? = some o) (ho : o.ended = false) :
    (P.step w (.go i)).isSome := by
  cases o with
  | fresh => simp [Plan.step, hi, Plan.next]
  | «at» c => cases hup : P.upgrade (c + 1) w.store <;> simp [Plan.step, hi, Plan.next, hup]
  | done | failed _ | gone => cases ho

end Steps

/-! ## The store -/

/-- An opener lags behind the store, and has arrived only where the store is of its version. -/
def Opener.Behind (target version : Nat) : Opener ε → Prop
  | .at c => c < target ∧ c ≤ version
  | .done => version = target
  | .fresh | .failed _ | .gone => True

section Store

variable {P : Plan σ β ε} {Fits : σ → Prop} {view : σ → γ} {apply : γ → β → γ}

theorem behind_enter {c : Nat} (hc : c ≤ P.target) : (P.enter c).Behind P.target c := by
  unfold Plan.enter
  split
  · next hlt => exact ⟨hlt, Nat.le_refl c⟩
  · next hle => exact Nat.le_antisymm hc (Nat.le_of_not_lt hle)

theorem Opener.Behind.mono {target v v' : Nat} {o : Opener ε} (h : o.Behind target v) (hv : v ≤ v')
    (hv' : v' ≤ target) : o.Behind target v' := by
  cases o with
  | «at» c => exact ⟨h.1, Nat.le_trans h.2 hv⟩
  | done => exact Nat.le_antisymm hv' (by rw [← show v = target from h]; exact hv)
  | fresh | failed _ | gone => trivial

variable (P Fits) in
structure Inv (w : World σ ε) : Prop where
  fits : Fits w.store
  behind : ∀ o ∈ w.openers, o.Behind P.target (P.version w.store)

/-- What an opener can do that goes on: it reads the version, raises it by one from where it has taken it to be, or
finds that done already. -/
theorem next_lawful (hP : Lawful P Fits view apply) {s s' : σ} {o o' : Opener ε} (hs : Fits s)
    (ho : o.Behind P.target (P.version s)) (h : P.next s o = some (s', o')) :
    (o = .fresh ∧ s' = s ∧ o' = P.enter (P.version s)) ∨
    (o = .at (P.version s) ∧ P.version s < P.target ∧ Fits s' ∧ P.version s' = P.version s + 1 ∧ view s' = view s ∧
      o' = P.enter (P.version s')) ∨
    ∃ c e, o = .at c ∧ c < P.version s ∧ s' = s ∧ o' = .failed e := by
  obtain ⟨rfl, rfl, ⟨hlt, -⟩ | ⟨-, rfl⟩⟩ | ⟨c, rfl, hup, rfl⟩ | ⟨c, e, rfl, herr, rfl, rfl⟩ := next_cases h
  · exact absurd (hP.known _ hs) (Nat.not_le.2 hlt)
  · exact .inl ⟨rfl, rfl, rfl⟩
  · obtain ⟨hc, hle⟩ := ho
    obtain rfl | hlt := Nat.eq_or_lt_of_le hle
    · obtain ⟨s₁, hok, hfits, hversion, hview⟩ := hP.raise s hs hc
      obtain rfl : s₁ = s' := Except.ok.inj (hok.symm.trans hup)
      exact .inr (.inl ⟨rfl, hc, hfits, hversion, hview, by rw [hversion]⟩)
    · obtain ⟨e, herr⟩ := hP.stale s c hs hlt
      rw [hup] at herr
      cases herr
  · obtain ⟨hc, hle⟩ := ho
    obtain rfl | hlt := Nat.eq_or_lt_of_le hle
    · obtain ⟨s₁, hok, -⟩ := hP.raise s' hs hc
      rw [hok] at herr
      cases herr
    · exact .inr (.inr ⟨c, e, rfl, hlt, rfl, rfl⟩)

/-- An opener that goes on leaves the store as it is, or raises its version. -/
theorem next_store (hP : Lawful P Fits view apply) {s s' : σ} {o o' : Opener ε} (hs : Fits s)
    (ho : o.Behind P.target (P.version s)) (h : P.next s o = some (s', o')) :
    Fits s' ∧ P.version s ≤ P.version s' ∧ view s' = view s ∧ o'.Behind P.target (P.version s') := by
  obtain ⟨-, rfl, rfl⟩ | ⟨-, hlt, hfits, hversion, hview, rfl⟩ | ⟨c, e, -, -, rfl, rfl⟩ := next_lawful hP hs ho h
  · exact ⟨hs, Nat.le_refl _, rfl, behind_enter (hP.known _ hs)⟩
  · exact ⟨hfits, by omega, hview, behind_enter (hP.known _ hfits)⟩
  · exact ⟨hs, Nat.le_refl _, rfl, trivial⟩

/-- What a step does to the store. -/
theorem step_store (hP : Lawful P Fits view apply) {w w' : World σ ε} {a : Act β} (hw : Inv P Fits w)
    (h : P.step w a = some w') :
    Inv P Fits w' ∧ P.version w.store ≤ P.version w'.store ∧
      view w'.store = a.written.toList.foldl apply (view w.store) := by
  obtain ⟨rfl, rfl⟩ | ⟨i, o, s, o', rfl, hi, hnext, rfl⟩ | ⟨i, o, o', hact, -, -, rfl⟩ | ⟨b, s, rfl, hwrite, rfl⟩ :=
    step_cases h
  · refine ⟨⟨hw.fits, fun o ho => ?_⟩, Nat.le_refl _, rfl⟩
    obtain ho | ho := List.mem_append.1 ho
    · exact hw.behind o ho
    · obtain rfl := List.mem_singleton.1 ho
      trivial
  · obtain ⟨hfits, hle, hview, hbehind⟩ :=
      next_store hP hw.fits (hw.behind o (List.mem_of_getElem? hi)) hnext
    refine ⟨⟨hfits, fun o₁ ho₁ => ?_⟩, hle, hview⟩
    obtain ho₁ | rfl := List.mem_or_eq_of_mem_set ho₁
    · exact (hw.behind o₁ ho₁).mono hle (hP.known s hfits)
    · exact hbehind
  · have hwritten : a.written = none := by
      obtain ⟨rfl, -⟩ | ⟨rfl, -⟩ := hact <;> rfl
    rw [hwritten]
    refine ⟨⟨hw.fits, fun o₁ ho₁ => ?_⟩, Nat.le_refl _, rfl⟩
    obtain ho₁ | rfl := List.mem_or_eq_of_mem_set ho₁
    · exact hw.behind o₁ ho₁
    · obtain ⟨-, rfl⟩ | ⟨-, rfl⟩ := hact <;> trivial
  · obtain ⟨hfits, hversion, hview⟩ := hP.write _ _ _ hw.fits hwrite
    exact ⟨⟨hfits, fun o ho => hversion ▸ hw.behind o ho⟩, Nat.le_of_eq hversion.symm, hview⟩

theorem inv_start {s : σ} (hs : Fits s) : Inv P Fits (start s) :=
  ⟨hs, fun _ ho => by cases ho⟩

/-- In every order of steps the version rises and the store fits it, whoever has arrived finds it to be of its
version, and what is to be read is what the writes alone have made. -/
theorem kept (hP : Lawful P Fits view apply) {s : σ} (hs : Fits s) {acts : List (Act β)} {w : World σ ε}
    (h : Steps.exec P.step (start s) acts = some w) :
    Inv P Fits w ∧ P.version s ≤ P.version w.store ∧
      view w.store = (acts.filterMap Act.written).foldl apply (view s) := by
  suffices hrun : ∀ w₀ : World σ ε, Inv P Fits w₀ → Steps.exec P.step w₀ acts = some w →
      Inv P Fits w ∧ P.version w₀.store ≤ P.version w.store ∧
        view w.store = (acts.filterMap Act.written).foldl apply (view w₀.store) from
    hrun _ (inv_start hs) h
  clear h
  induction acts with
  | nil =>
    intro w₀ hw₀ h
    obtain rfl : w₀ = w := Option.some.inj h
    exact ⟨hw₀, Nat.le_refl _, rfl⟩
  | cons a acts ih =>
    intro w₀ hw₀ h
    obtain ⟨w₁, ha, h⟩ := Steps.exec_cons_eq_some.1 h
    obtain ⟨hw₁, hle, hview⟩ := step_store hP hw₀ ha
    obtain ⟨hw, hle', hview'⟩ := ih w₁ hw₁ h
    refine ⟨hw, Nat.le_trans hle hle', ?_⟩
    rw [hview', hview]
    cases hwritten : a.written <;> simp [hwritten]

/-- No step lowers the version. -/
theorem rising (hP : Lawful P Fits view apply) {s : σ} (hs : Fits s) (acts : List (Act β)) :
    Steps.AllSteps P.step (fun (w : World σ ε) _ w' => P.version w.store ≤ P.version w'.store) (start s) acts :=
  Steps.AllSteps.guarded (I := Inv P Fits)
    (fun _ _ _ hw _ hstep => ⟨(step_store hP hw hstep).1, (step_store hP hw hstep).2.1⟩) (inv_start hs)
    (Steps.AllSteps.of_forall (R := fun _ _ _ => True) (fun _ _ _ _ => trivial) _ _)

end Store

/-! ## The openers -/

section Openers

variable {P : Plan σ β ε} {Fits : σ → Prop} {view : σ → γ} {apply : γ → β → γ}

variable (P) in
/-- Some opener is where the store is, or has yet to look. -/
def Led (w : World σ ε) : Prop :=
  w.openers = [] ∨ ∃ o ∈ w.openers, o = .fresh ∨ o = P.enter (P.version w.store)

theorem enter_of_target {c : Nat} (h : P.target ≤ c) : P.enter c = .done :=
  if_neg (Nat.not_lt.2 h)

theorem enter_eq_at {v c : Nat} (h : P.enter v = .at c) : c = v := by
  unfold Plan.enter at h
  split at h
  · exact (Opener.at.inj h).symm
  · cases h

theorem enter_ne_failed {v : Nat} {e : ε} : P.enter v ≠ .failed e := by
  unfold Plan.enter
  split <;> simp

theorem led_step (hP : Lawful P Fits view apply) {w w' : World σ ε} {a : Act β} (hcalm : a.calm)
    (hw : Inv P Fits w) (hled : Led P w) (h : P.step w a = some w') : Led P w' := by
  obtain ⟨rfl, rfl⟩ | ⟨i, o, s, o', rfl, hi, hnext, rfl⟩ | ⟨i, o, o', hact, -, -, rfl⟩ | ⟨b, s, rfl, hwrite, rfl⟩ :=
    step_cases h
  · exact .inr ⟨.fresh, by simp, .inl rfl⟩
  · have hmem : o' ∈ w.openers.set i o' :=
      List.mem_iff_getElem?.2 ⟨i, by simp [(List.getElem?_eq_some_iff.1 hi).1]⟩
    obtain ⟨rfl, rfl, rfl⟩ | ⟨-, -, -, -, -, ho'⟩ | ⟨c, e, rfl, hlt, rfl, rfl⟩ :=
      next_lawful hP hw.fits (hw.behind o (List.mem_of_getElem? hi)) hnext
    · exact .inr ⟨_, hmem, .inr rfl⟩
    · exact .inr ⟨o', hmem, .inr ho'⟩
    · -- Who finds his step taken did not lead.
      obtain hnil | ⟨o₁, ho₁, hlead⟩ := hled
      · simp [hnil] at hi
      · obtain ⟨j, hj⟩ := List.mem_iff_getElem?.1 ho₁
        have hij : i ≠ j := by
          rintro rfl
          obtain rfl : Opener.at c = o₁ := Option.some.inj (hi.symm.trans hj)
          obtain hlead | hlead := hlead
          · cases hlead
          · have := enter_eq_at hlead.symm
            omega
        exact .inr ⟨o₁, List.mem_iff_getElem?.2 ⟨j, by rw [List.getElem?_set_ne hij, hj]⟩, hlead⟩
  · obtain ⟨rfl, -⟩ | ⟨rfl, -⟩ := hact <;> cases hcalm
  · obtain ⟨-, hversion, -⟩ := hP.write _ _ _ hw.fits hwrite
    obtain hnil | ⟨o₁, ho₁, hlead⟩ := hled
    · exact .inl hnil
    · exact .inr ⟨o₁, ho₁, by simpa only [hversion] using hlead⟩

/-- Where no opener meets a fault, once all have ended the store is of their version, and one of them has
arrived. -/
theorem arrives (hP : Lawful P Fits view apply) {s : σ} (hs : Fits s) {acts : List (Act β)} {w : World σ ε}
    (hcalm : ∀ a ∈ acts, a.calm) (h : Steps.exec P.step (start s) acts = some w)
    (hsome : w.openers ≠ []) (hended : ∀ o ∈ w.openers, o.ended) :
    P.version w.store = P.target ∧ .done ∈ w.openers := by
  have hinv : Inv P Fits w ∧ Led P w := by
    refine Steps.exec_guarded (I := fun w => Inv P Fits w ∧ Led P w) (fun w a w' ⟨hw, hled⟩ ha hstep => ?_)
      ⟨inv_start hs, .inl rfl⟩ (.of_mem hcalm _) h
    exact ⟨(step_store hP hw hstep).1, led_step hP ha hw hled hstep⟩
  obtain ⟨hw, hled⟩ := hinv
  obtain hnil | ⟨o, ho, hlead⟩ := hled
  · exact absurd hnil hsome
  · have hend := hended o ho
    obtain rfl | rfl := hlead
    · cases hend
    · have htarget : P.target ≤ P.version w.store := by
        by_contra hlt
        simp [Plan.enter, Nat.lt_of_not_le hlt, Opener.ended] at hend
      exact ⟨Nat.le_antisymm (hP.known _ hw.fits) htarget, by rwa [enter_of_target htarget] at ho⟩

/-! ### Who is overtaken -/

variable (P) in
/-- Another opener has taken the step from version `c`. -/
def Passed (s : σ) (acts : List (Act β)) (i c : Nat) : Prop :=
  ∃ j front behind w₁ w₂, acts = front ++ .go j :: behind ∧ j ≠ i ∧ Steps.exec P.step (start s) front = some w₁ ∧
    w₁.openers[j]? = some (.at c) ∧ P.version w₁.store = c ∧ P.step w₁ (.go j) = some w₂ ∧
    P.version w₂.store = c + 1

variable (P) in
/-- The opener `i` has failed in a step that another one had taken before it. -/
def Overtaken (s : σ) (acts : List (Act β)) (i : Nat) : Prop :=
  ∃ c e front behind w₁ w₂, acts = front ++ .go i :: behind ∧ Steps.exec P.step (start s) front = some w₁ ∧
    w₁.openers[i]? = some (.at c) ∧ Passed P s front i c ∧ P.step w₁ (.go i) = some w₂ ∧
    w₂.openers[i]? = some (.failed e)

theorem Passed.more {s : σ} {acts : List (Act β)} {i c : Nat} (h : Passed P s acts i c) (a : Act β) :
    Passed P s (acts ++ [a]) i c := by
  obtain ⟨j, front, behind, w₁, w₂, rfl, hrest⟩ := h
  exact ⟨j, front, behind ++ [a], w₁, w₂, by simp, hrest⟩

theorem Overtaken.more {s : σ} {acts : List (Act β)} {i : Nat} (h : Overtaken P s acts i) (a : Act β) :
    Overtaken P s (acts ++ [a]) i := by
  obtain ⟨c, e, front, behind, w₁, w₂, rfl, hrest⟩ := h
  exact ⟨c, e, front, behind ++ [a], w₁, w₂, by simp, hrest⟩

variable (P) in
/-- Whoever lags behind the store has been passed, and who has failed met a fault or was overtaken. -/
structure Explained (s : σ) (acts : List (Act β)) (w : World σ ε) : Prop where
  lagging : ∀ i c, w.openers[i]? = some (.at c) → c < P.version w.store → Passed P s acts i c
  failed : ∀ i e, w.openers[i]? = some (.failed e) → .fault i ∈ acts ∨ Overtaken P s acts i

theorem getElem?_set_cases {os : List (Opener ε)} {i k : Nat} {o o' : Opener ε}
    (h : (os.set i o')[k]? = some o) : (k = i ∧ o = o') ∨ k ≠ i ∧ os[k]? = some o := by
  by_cases hk : k = i
  · subst hk
    have hlt : k < os.length := by
      have := (List.getElem?_eq_some_iff.1 h).1
      rwa [List.length_set] at this
    rw [List.getElem?_set_self hlt] at h
    exact .inl ⟨rfl, (Option.some.inj h).symm⟩
  · rw [List.getElem?_set_ne (Ne.symm hk)] at h
    exact .inr ⟨hk, h⟩

theorem getElem?_fresh {os : List (Opener ε)} {k : Nat} {o : Opener ε} (h : (os ++ [.fresh])[k]? = some o) :
    os[k]? = some o ∨ o = .fresh := by
  rcases Nat.lt_or_ge k os.length with hlt | hge
  · rw [List.getElem?_append_left hlt] at h
    exact .inl h
  · rw [List.getElem?_append_right hge, List.getElem?_singleton] at h
    split at h
    · exact .inr (Option.some.inj h).symm
    · cases h

/-- A step of another kind than `go`. -/
theorem Explained.more {s : σ} {acts : List (Act β)} {w w' : World σ ε} {a : Act β} (h : Explained P s acts w)
    (hversion : P.version w'.store = P.version w.store)
    (hlag : ∀ (i c : Nat), w'.openers[i]? = some (.at c) → w.openers[i]? = some (.at c))
    (hfail : ∀ (i : Nat) (e : ε), w'.openers[i]? = some (.failed e) → w.openers[i]? = some (.failed e) ∨ a = .fault i) :
    Explained P s (acts ++ [a]) w' where
  lagging i c hi hlt := (h.lagging i c (hlag i c hi) (hversion ▸ hlt)).more a
  failed i e hi := by
    obtain hold | rfl := hfail i e hi
    · obtain hfault | hover := h.failed i e hold
      · exact .inl (List.mem_append_left _ hfault)
      · exact .inr (hover.more a)
    · exact .inl (by simp)

theorem explained_go (hP : Lawful P Fits view apply) {s : σ} {acts : List (Act β)} {w : World σ ε} {i : Nat}
    {o o' : Opener ε} {s' : σ} (hrun : Steps.exec P.step (start s) acts = some w) (hw : Inv P Fits w)
    (h : Explained P s acts w) (hi : w.openers[i]? = some o) (hnext : P.next w.store o = some (s', o')) :
    Explained P s (acts ++ [.go i]) { store := s', openers := w.openers.set i o' } := by
  have hstep : P.step w (.go i) = some { store := s', openers := w.openers.set i o' } := by
    simp [Plan.step, hi, hnext]
  have hset : (w.openers.set i o')[i]? = some o' := List.getElem?_set_self (List.getElem?_eq_some_iff.1 hi).1
  have hothers : ∀ k e, k ≠ i → w.openers[k]? = some (.failed e) →
      .fault k ∈ acts ++ [Act.go i] ∨ Overtaken P s (acts ++ [.go i]) k := by
    intro k e _ hk
    obtain hfault | hover := h.failed k e hk
    · exact .inl (List.mem_append_left _ hfault)
    · exact .inr (hover.more _)
  obtain ⟨rfl, rfl, rfl⟩ | ⟨rfl, -, -, hversion, -, rfl⟩ | ⟨c, e, rfl, hlt, rfl, rfl⟩ :=
    next_lawful hP hw.fits (hw.behind o (List.mem_of_getElem? hi)) hnext
  · refine ⟨fun k c hk hlt => ?_, fun k e hk => ?_⟩
    · obtain ⟨rfl, hc⟩ | ⟨hne, hk⟩ := getElem?_set_cases hk
      · exact absurd (enter_eq_at hc.symm) (Nat.ne_of_lt hlt)
      · exact (h.lagging k c hk hlt).more _
    · obtain ⟨rfl, he⟩ | ⟨hne, hk⟩ := getElem?_set_cases hk
      · exact absurd he.symm enter_ne_failed
      · exact hothers k e hne hk
  · -- The version rises: all who stood where this opener stood are passed.
    refine ⟨fun k c hk hlt => ?_, fun k e hk => ?_⟩
    · obtain ⟨rfl, hc⟩ | ⟨hne, hk⟩ := getElem?_set_cases hk
      · exact absurd (enter_eq_at hc.symm) (Nat.ne_of_lt hlt)
      · have hle : c ≤ P.version w.store := (hw.behind _ (List.mem_of_getElem? hk)).2
        obtain rfl | hlt' := Nat.eq_or_lt_of_le hle
        · exact ⟨i, acts, [], w, _, rfl, Ne.symm hne, hrun, hi, rfl, hstep, hversion⟩
        · exact (h.lagging k c hk hlt').more _
    · obtain ⟨rfl, he⟩ | ⟨hne, hk⟩ := getElem?_set_cases hk
      · exact absurd he.symm enter_ne_failed
      · exact hothers k e hne hk
  · refine ⟨fun k d hk hlt' => ?_, fun k f hk => ?_⟩
    · obtain ⟨-, hd⟩ | ⟨-, hk⟩ := getElem?_set_cases hk
      · cases hd
      · exact (h.lagging k d hk hlt').more _
    · obtain ⟨rfl, -⟩ | ⟨hne, hk⟩ := getElem?_set_cases hk
      · exact .inr ⟨c, e, acts, [], w, _, rfl, hrun, hi, h.lagging k c hi hlt, hstep, hset⟩
      · exact hothers k f hne hk

theorem explained_step (hP : Lawful P Fits view apply) {s : σ} {acts : List (Act β)} {w w' : World σ ε} {a : Act β}
    (hrun : Steps.exec P.step (start s) acts = some w) (hw : Inv P Fits w) (h : Explained P s acts w)
    (hstep : P.step w a = some w') : Explained P s (acts ++ [a]) w' := by
  obtain ⟨rfl, rfl⟩ | ⟨i, o, s', o', rfl, hi, hnext, rfl⟩ | ⟨i, o, o', hact, hi, -, rfl⟩ | ⟨b, s', rfl, hwrite, rfl⟩ :=
    step_cases hstep
  · refine h.more rfl (fun k c hk => ?_) fun k e hk => ?_
    · obtain hk | hfresh := getElem?_fresh hk
      · exact hk
      · cases hfresh
    · obtain hk | hfresh := getElem?_fresh hk
      · exact .inl hk
      · cases hfresh
  · exact explained_go hP hrun hw h hi hnext
  · refine h.more rfl (fun k c hk => ?_) fun k e hk => ?_
    · obtain ⟨-, hc⟩ | ⟨-, hk⟩ := getElem?_set_cases hk
      · obtain ⟨-, rfl⟩ | ⟨-, rfl⟩ := hact <;> cases hc
      · exact hk
    · obtain ⟨rfl, he⟩ | ⟨-, hk⟩ := getElem?_set_cases hk
      · obtain ⟨rfl, -⟩ | ⟨-, rfl⟩ := hact
        · exact .inr rfl
        · cases he
      · exact .inl hk
  · exact h.more (hP.write _ _ _ hw.fits hwrite).2.1 (fun _ _ hk => hk) fun _ _ hk => .inl hk

/-- Whoever has failed met a fault, or came to a step that another opener had taken. -/
theorem overtaken (hP : Lawful P Fits view apply) {s : σ} (hs : Fits s) {acts : List (Act β)} {w : World σ ε}
    (h : Steps.exec P.step (start s) acts = some w) {i : Nat} {e : ε} (hi : w.openers[i]? = some (.failed e)) :
    .fault i ∈ acts ∨ Overtaken P s acts i := by
  suffices hall : Explained P s acts w from hall.failed i e hi
  clear hi
  induction acts using List.reverseRec generalizing w with
  | nil =>
    obtain rfl : start s = w := Option.some.inj h
    constructor <;> simp [start]
  | append_singleton acts a ih =>
    obtain ⟨w₀, hrun, hlast⟩ := Steps.exec_append_eq_some.1 h
    obtain ⟨w', hstep, hend⟩ := Steps.exec_cons_eq_some.1 hlast
    obtain rfl : w' = w := Option.some.inj hend
    exact explained_step hP hrun (kept hP hs hrun).1 (ih hrun) hstep

/-! ### How long an opener takes -/

/-- How many steps an opener has before it. -/
def Opener.left (target : Nat) : Opener ε → Nat
  | .fresh => target + 1
  | .at c => target - c
  | .done | .failed _ | .gone => 0

theorem left_enter (c : Nat) : (P.enter c).left P.target = P.target - c := by
  unfold Plan.enter
  split
  · rfl
  · simp only [Opener.left]
    omega

theorem left_next {s s' : σ} {o o' : Opener ε} (hbehind : o.Behind P.target (P.version s))
    (h : P.next s o = some (s', o')) : o'.left P.target < o.left P.target := by
  obtain ⟨rfl, -, ⟨-, rfl⟩ | ⟨-, rfl⟩⟩ | ⟨c, rfl, -, rfl⟩ | ⟨c, e, rfl, -, -, rfl⟩ := next_cases h
  · simp [Opener.left]
  · rw [left_enter]
    simp only [Opener.left]
    omega
  · have hc : c < P.target := hbehind.1
    rw [left_enter]
    simp only [Opener.left]
    omega
  · have hc : c < P.target := hbehind.1
    simp only [Opener.left]
    omega

/-- What the opener `i` has before it; before it comes, all. -/
def World.left (target : Nat) (w : World σ ε) (i : Nat) : Nat :=
  match w.openers[i]? with
  | some o => o.left target
  | none => target + 1

theorem left_set {target : Nat} {w : World σ ε} {s : σ} {i : Nat} {o o' : Opener ε} (hi : w.openers[i]? = some o)
    (k : Nat) : World.left target { store := s, openers := w.openers.set i o' } k =
      if k = i then o'.left target else w.left target k := by
  unfold World.left
  by_cases hk : k = i
  · subst hk
    rw [if_pos rfl, List.getElem?_set_self (List.getElem?_eq_some_iff.1 hi).1]
  · rw [if_neg hk, List.getElem?_set_ne (Ne.symm hk)]

/-- A step of the opener leaves it fewer, and no other step leaves it more. -/
theorem left_step {w w' : World σ ε} {a : Act β} (hw : Inv P Fits w)
    (h : P.step w a = some w') (k : Nat) :
    (if a.goes k then 1 else 0) + w'.left P.target k ≤ w.left P.target k := by
  obtain ⟨rfl, rfl⟩ | ⟨i, o, s', o', rfl, hi, hnext, rfl⟩ | ⟨i, o, o', hact, hi, -, rfl⟩ | ⟨b, s', rfl, -, rfl⟩ :=
    step_cases h
  · have hopen : (if (Act.open : Act β).goes k then 1 else 0) = 0 := rfl
    rw [hopen, Nat.zero_add]
    unfold World.left
    apply Nat.le_of_eq
    rcases Nat.lt_trichotomy k w.openers.length with hlt | rfl | hgt
    · rw [List.getElem?_append_left hlt]
    · rw [List.getElem?_concat_length, List.getElem?_eq_none (Nat.le_refl _)]
      rfl
    · rw [List.getElem?_eq_none (by rw [List.length_append, List.length_singleton]; omega),
        List.getElem?_eq_none (by omega)]
  · have hlt := left_next (hw.behind o (List.mem_of_getElem? hi)) hnext
    rw [left_set hi k]
    by_cases hk : k = i
    · subst hk
      have hleft : w.left P.target k = o.left P.target := by simp only [World.left, hi]
      simp only [Act.goes, decide_true, if_true, hleft]
      omega
    · simp [Act.goes, hk, Ne.symm hk]
  · have hzero : o'.left P.target = 0 := by obtain ⟨-, rfl⟩ | ⟨-, rfl⟩ := hact <;> rfl
    have hnone : a.goes k = false := by obtain ⟨rfl, -⟩ | ⟨rfl, -⟩ := hact <;> rfl
    have hset : World.left P.target { store := w.store, openers := w.openers.set i o' } k =
        if k = i then o'.left P.target else w.left P.target k := left_set hi k
    rw [hnone, hset, hzero]
    simp only [Bool.false_eq_true, if_false]
    split <;> omega
  · simp [Act.goes, World.left]

/-- Each opener is through after as many steps as there are versions, and one more. -/
theorem goes_le (hP : Lawful P Fits view apply) {s : σ} (hs : Fits s) {acts : List (Act β)} {w : World σ ε}
    (h : Steps.exec P.step (start s) acts = some w) (i : Nat) : acts.countP (Act.goes i) ≤ P.target + 1 := by
  suffices hrun : ∀ w₀ : World σ ε, Inv P Fits w₀ → Steps.exec P.step w₀ acts = some w →
      acts.countP (Act.goes i) ≤ w₀.left P.target i from
    hrun _ (inv_start hs) h
  clear h
  induction acts with
  | nil => simp
  | cons a acts ih =>
    intro w₀ hw₀ h
    obtain ⟨w₁, ha, h⟩ := Steps.exec_cons_eq_some.1 h
    have hfirst := left_step hw₀ ha i
    have hrest := ih w₁ (step_store hP hw₀ ha).1 h
    rw [List.countP_cons]
    omega

/-- What is left of `run` for an opener that is alone. -/
def Opener.Onto (P : Plan σ β ε) (s : σ) (r : Except ε σ) : Opener ε → Prop
  | .fresh => r = P.run s
  | .at c => c < P.target ∧ r = P.turns (P.target - c) s
  | .done => r = .ok s
  | .failed e => r = .error e
  | .gone => True

theorem onto_enter {s : σ} {r : Except ε σ} {c : Nat} (h : r = P.turns (P.target - c) s) :
    (P.enter c).Onto P s r := by
  unfold Plan.enter
  split
  · next hlt => exact ⟨hlt, h⟩
  · next hle =>
    rw [Nat.sub_eq_zero_of_le (Nat.le_of_not_lt hle)] at h
    exact h

theorem onto_next {s s' : σ} {o o' : Opener ε} {r : Except ε σ} (ho : o.Onto P s r)
    (h : P.next s o = some (s', o')) : o'.Onto P s' r := by
  obtain ⟨rfl, rfl, ⟨hlt, rfl⟩ | ⟨hle, rfl⟩⟩ | ⟨c, rfl, hup, rfl⟩ | ⟨c, e, rfl, herr, rfl, rfl⟩ := next_cases h
  · obtain rfl : r = P.run s' := ho
    exact if_pos hlt
  · obtain rfl : r = P.run s' := ho
    exact onto_enter (if_neg (Nat.not_lt.2 hle))
  all_goals
    obtain ⟨hc, rfl⟩ := ho
    obtain ⟨n, hn⟩ : ∃ n, P.target - c = n + 1 := ⟨P.target - c - 1, by omega⟩
    obtain rfl : n = P.target - (c + 1) := by omega
    have hnext : P.target - (P.target - (c + 1)) = c + 1 := by omega
    rw [hn, Plan.turns, hnext]
  · exact onto_enter (by rw [hup]; rfl)
  · rw [herr]
    rfl

/-- An opener that is alone does what `run` does. -/
theorem alone {s : σ} {n : Nat} {w : World σ ε}
    (h : Steps.exec P.step (start s) (.open :: List.replicate n (.go 0)) = some w) :
    ∃ o, w.openers = [o] ∧ o.Onto P w.store (P.run s) := by
  obtain ⟨w₁, hopen, h⟩ := Steps.exec_cons_eq_some.1 h
  obtain rfl : { store := s, openers := [.fresh] } = w₁ := Option.some.inj hopen
  have hfresh : Opener.Onto P s (P.run s) .fresh := rfl
  refine Steps.exec_guarded (I := fun w : World σ ε => ∃ o, w.openers = [o] ∧ o.Onto P w.store (P.run s))
    (R := fun _ a _ => a = .go 0) (fun w a w' ⟨o, hw, ho⟩ ha hstep => ?_) ⟨.fresh, rfl, hfresh⟩
    (.of_mem (fun a ha => List.eq_of_mem_replicate ha) _) h
  subst ha
  obtain ⟨ha, -⟩ | ⟨i, o₁, s', o', ha, hi, hnext, rfl⟩ | ⟨i, o₁, o', ⟨ha, -⟩ | ⟨ha, -⟩, -⟩ | ⟨b, s', ha, -⟩ :=
    step_cases hstep
  · cases ha
  · obtain rfl := Act.go.inj ha
    obtain rfl : o = o₁ := by simpa [hw] using hi
    exact ⟨o', by simp [hw], onto_next ho hnext⟩
  all_goals cases ha

end Openers

/-! ## A store that is too new -/

/-- An opener that has not seen the version, or was refused for it. -/
def Opener.Refused (P : Plan σ β ε) (v : Nat) : Opener ε → Prop
  | .failed e => e = P.tooNew v ∨ e = P.fault
  | .at _ | .done => False
  | .fresh | .gone => True

/-- A store of a version the openers do not know is left to those who know it: no opener arrives, and whatever it is
that no write changes is as it was. -/
theorem refused {P : Plan σ β ε} {s : σ} {same : σ → γ} (hnew : P.target < P.version s)
    (hwrite : ∀ b s s', P.write b s = some s' → P.version s' = P.version s ∧ same s' = same s)
    {acts : List (Act β)} {w : World σ ε} (h : Steps.exec P.step (start s) acts = some w) :
    P.version w.store = P.version s ∧ same w.store = same s ∧
      ∀ o ∈ w.openers, o.Refused P (P.version s) := by
  refine Steps.exec_invariant
    (I := fun w : World σ ε => P.version w.store = P.version s ∧ same w.store = same s ∧
      ∀ o ∈ w.openers, o.Refused P (P.version s))
    (fun w a w' ⟨hv, hsame, hopeners⟩ hstep => ?_) ⟨rfl, rfl, fun o ho => by cases ho⟩ h
  obtain ⟨rfl, rfl⟩ | ⟨i, o, s', o', rfl, hi, hnext, rfl⟩ | ⟨i, o, o', hact, -, -, rfl⟩ | ⟨b, s', rfl, hb, rfl⟩ :=
    step_cases hstep
  · refine ⟨hv, hsame, fun o ho => ?_⟩
    obtain ho | ho := List.mem_append.1 ho
    · exact hopeners o ho
    · obtain rfl := List.mem_singleton.1 ho
      trivial
  · have ho := hopeners o (List.mem_of_getElem? hi)
    obtain ⟨rfl, rfl, hnew'⟩ | ⟨c, rfl, -, -⟩ | ⟨c, e, rfl, -, -, -⟩ := next_cases hnext
    · refine ⟨hv, hsame, fun o₁ ho₁ => ?_⟩
      obtain ho₁ | rfl := List.mem_or_eq_of_mem_set ho₁
      · exact hopeners o₁ ho₁
      · obtain ⟨-, rfl⟩ | ⟨hle, -⟩ := hnew'
        · exact .inl (by rw [hv])
        · omega
    · exact ho.elim
    · exact ho.elim
  · refine ⟨hv, hsame, fun o₁ ho₁ => ?_⟩
    obtain ho₁ | rfl := List.mem_or_eq_of_mem_set ho₁
    · exact hopeners o₁ ho₁
    · obtain ⟨-, rfl⟩ | ⟨-, rfl⟩ := hact
      · exact .inr rfl
      · trivial
  · obtain ⟨hb₁, hb₂⟩ := hwrite _ _ _ hb
    exact ⟨hb₁.trans hv, hb₂.trans hsame, hopeners⟩

end Upgrade
