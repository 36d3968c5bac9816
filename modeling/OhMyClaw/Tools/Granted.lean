import OhMyClaw.Tools.Approval

/-!
# What is granted to a call

The calls that ask for the user's word stay who they are, whatever happens to them; and a child that is spawned for
one of them has it.

    granted_step    whatever happens, who has a child was granted it, and has one only
-/

namespace OhMyClaw

theorem nodup_map_snoc {α β : Type} {f : α → β} {l : List α} {x : α} (h : (l.map f).Nodup)
    (hnew : ∀ y ∈ l, f y ≠ f x) : ((l ++ [x]).map f).Nodup := by
  rw [List.map_append, List.nodup_append]
  refine ⟨h, by simp, fun b hb b' hb' => ?_⟩
  obtain ⟨y, hy, rfl⟩ := List.mem_map.1 hb
  obtain rfl : b' = f x := by simpa using hb'
  exact hnew y hy

namespace Approval

/-- How far a call has come; its child is there, or was, from 3 on. -/
def Pc.stage : Pc → Nat
  | .requesting => 0
  | .pending _ | .answered _ _ | .decided _ => 1
  | .spawning => 2
  | .running | .finished _ => 3

theorem Pc.stage_le (pc : Pc) : pc.stage ≤ 3 := by
  cases pc <;> simp [Pc.stage]

theorem Next.stage {pc pc' : Pc} (h : Next pc pc') : pc.stage ≤ pc'.stage := by
  cases h with
  | ends pc result => exact pc.stage_le
  | reads id allow | unanswered id | unread id allow => exact Nat.le_refl 1
  | allowed => exact Nat.le_succ 1

/-- The calls stay who they are and never go back, and what was issued stays issued. -/
structure Grows (s s' : Sys) : Prop where
  calls : ∀ (k : Nat) (c : Call), s.calls[k]? = some c → ∃ c' : Call, s'.calls[k]? = some c' ∧
    c'.run = c.run ∧ c'.tool = c.tool ∧ c'.command = c.command ∧ c.pc.stage ≤ c'.pc.stage
  histories : Extends s s'

theorem Grows.of_calls {s s' : Sys} (hext : Extends s s') (hcalls : s'.calls = s.calls) : Grows s s' :=
  ⟨fun _ c hk => ⟨c, hcalls ▸ hk, rfl, rfl, rfl, Nat.le_refl _⟩, hext⟩

theorem Grows.setPc {s s' : Sys} {k : Nat} {c : Call} {pc : Pc} (hext : Extends s s') (hcalls : s'.calls = s.calls)
    (hk : s.calls[k]? = some c) (hpc : c.pc.stage ≤ pc.stage) : Grows s (s'.setPc k pc) := by
  refine ⟨fun j d hj => ?_, ⟨hext.issued, hext.replies⟩⟩
  refine ⟨if k = j then { d with pc } else d, by rw [getElem?_setPc, hcalls, hj]; rfl, ?_⟩
  by_cases hkj : k = j
  · subst hkj
    obtain rfl : c = d := Option.some.inj (hk.symm.trans hj)
    rw [if_pos rfl]
    exact ⟨rfl, rfl, rfl, hpc⟩
  · rw [if_neg hkj]
    exact ⟨rfl, rfl, rfl, Nat.le_refl _⟩

theorem grows_moved {s t : Sys} {k : Nat} {c : Call} {m : Move} (hk : s.calls[k]? = some c) (h : Moved s k c m t) :
    Grows s t := by
  cases h with
  | quiet hm hnext hcalls hissued hreplies hspawned => exact .setPc (.of_eq hissued hreplies) hcalls hk hnext.stage
  | @issue id hpc =>
    have hext : Extends s { s with approvals := s.approvals ++ [(id, k)], issued := s.issued ++ [(id, k)] } :=
      ⟨fun _ he => List.mem_append_left _ he, fun _ he => he⟩
    exact .setPc hext rfl hk (by simp [hpc, Pc.stage])
  | spawn hpc =>
    have hext : Extends s { s with spawned := s.spawned ++ [(k, c.command)] } := .of_eq rfl rfl
    exact .setPc hext rfl hk (Pc.stage_le _)

theorem grows_reply (s : Sys) (id : String) (allow : Bool) : Grows s (s.reply id allow) := by
  refine ⟨fun j c hj => ?_, (extends_reply s id allow).1⟩
  simp only [Sys.reply]
  split
  · next k hfind =>
    refine ⟨if k = j then if c.pc = .pending id then { c with pc := .answered id allow } else c else c, ?_, ?_⟩
    · show (s.calls.modify k _)[j]? = _
      rw [List.getElem?_modify, hj]
      rfl
    · split
      · split
        · next hpc => exact ⟨rfl, rfl, rfl, by simp [hpc, Pc.stage]⟩
        · exact ⟨rfl, rfl, rfl, Nat.le_refl _⟩
      · exact ⟨rfl, rfl, rfl, Nat.le_refl _⟩
  · exact ⟨c, hj, rfl, rfl, rfl, Nat.le_refl _⟩

theorem grows_step {cfg : Cfg} {s t : Sys} {a : Act} (h : step cfg s a = some t) : Grows s t := by
  cases a with
  | invoke run tool command =>
    cases h
    refine ⟨fun k c hk => ⟨c, ?_, rfl, rfl, rfl, Nat.le_refl _⟩, .of_eq rfl rfl⟩
    rw [List.getElem?_append_left (List.getElem?_eq_some_iff.1 hk).1, hk]
  | move k m =>
    simp only [step] at h
    split at h
    · next c hk => exact grows_moved hk (moved_of_move h)
    · cases h
  | reply id allow =>
    cases h
    exact grows_reply s id allow
  | cancel run =>
    cases h
    exact .of_calls (.of_eq rfl rfl) rfl

/-- A child of `exec` that needed the user's word has it, and a call has one child at most. -/
structure Granted (cfg : Cfg) (s : Sys) : Prop where
  approved : ∀ (k : Nat) (command : String), (k, command) ∈ s.spawned → ∃ c : Call, s.calls[k]? = some c ∧
    c.command = command ∧ 3 ≤ c.pc.stage ∧ (c.tool = .exec → cfg.decision command = .askUser → Approved s k)
  once : (s.spawned.map (·.1)).Nodup

variable {cfg : Cfg} {s t : Sys}

theorem granted_empty (cfg : Cfg) : Granted cfg .empty := ⟨by simp [Sys.empty], by simp [Sys.empty]⟩

/-- Nothing is spawned. -/
theorem Granted.kept (h : Granted cfg s) (hgrows : Grows s t) (hspawned : t.spawned = s.spawned) : Granted cfg t := by
  refine ⟨fun k command hmem => ?_, by rw [hspawned]; exact h.once⟩
  rw [hspawned] at hmem
  obtain ⟨c, hc, hcommand, hpc, happroved⟩ := h.approved k command hmem
  obtain ⟨c', hc', -, htool, hcommand', hpc'⟩ := hgrows.calls k c hc
  refine ⟨c', hc', hcommand'.trans hcommand, Nat.le_trans hpc hpc', fun hexec hask => ?_⟩
  exact (happroved (htool ▸ hexec) hask).mono hgrows.histories

theorem granted_move {k : Nat} {c : Call} {m : Move} (hinv : Inv cfg s) (h : Granted cfg s)
    (hk : s.calls[k]? = some c) (hmoved : Moved s k c m t) : Granted cfg t := by
  have hgrows := grows_moved hk hmoved
  cases hmoved with
  | quiet hm hnext hcalls hissued hreplies hspawned => exact h.kept hgrows hspawned
  | issue hpc => exact h.kept hgrows rfl
  | spawn hpc =>
    have hok := hinv.calls k c hk
    simp only [CallOk, hpc] at hok
    have hnew : ∀ command, (k, command) ∉ s.spawned := by
      intro command hmem
      obtain ⟨d, hd, -, hstage, -⟩ := h.approved k command hmem
      obtain rfl : c = d := Option.some.inj (hk.symm.trans hd)
      simp [hpc, Pc.stage] at hstage
    constructor
    · intro j command hmem
      obtain hmem | hmem := List.mem_append.1 hmem
      · obtain ⟨d, hd, hcommand, hstage, happroved⟩ := h.approved j command hmem
        have hkj : k ≠ j := by
          rintro rfl
          exact hnew command hmem
        exact ⟨d, by rw [getElem?_setPc]; simp [hd, hkj], hcommand, hstage, happroved⟩
      · obtain ⟨rfl, rfl⟩ := Prod.mk.inj (List.mem_singleton.1 hmem)
        exact ⟨{ c with pc := .running }, by rw [getElem?_setPc]; simp [hk], rfl, Nat.le_refl 3,
          fun hexec hask => (hok hexec).2 hask⟩
    · refine nodup_map_snoc h.once fun e he hkey => ?_
      obtain rfl : e.1 = k := hkey
      exact hnew e.2 he

theorem granted_step {a : Act} (hinv : Inv cfg s) (h : Granted cfg s) (hstep : step cfg s a = some t) :
    Granted cfg t := by
  have hgrows := grows_step hstep
  cases a with
  | move k m =>
    simp only [step] at hstep
    split at hstep
    · next c hk => exact granted_move hinv h hk (moved_of_move hstep)
    · cases hstep
  | reply id allow =>
    cases hstep
    exact h.kept hgrows (extends_reply s id allow).2
  | invoke run tool command | cancel run =>
    cases hstep
    exact h.kept hgrows rfl

/-! ## Ids and replies -/

@[simp] theorem reply_issued (s : Sys) (id : String) (allow : Bool) : (s.reply id allow).issued = s.issued := by
  simp only [Sys.reply]
  split <;> rfl

@[simp] theorem reply_replies (s : Sys) (id : String) (allow : Bool) :
    (s.reply id allow).replies = s.replies ++ [(id, allow)] := by
  simp only [Sys.reply]
  split <;> rfl

/-- Only a pump issues an id, and it is a new one. -/
theorem issued_step {a : Act} (h : step cfg s a = some t) :
    (∃ k id c, a = .move k (.issue id) ∧ s.calls[k]? = some c ∧ c.pc = .requesting ∧ (∀ e ∈ s.issued, e.1 ≠ id) ∧
      t.issued = s.issued ++ [(id, k)] ∧ ∃ c', t.calls[k]? = some c' ∧ c'.pc = .pending id) ∨
    (∀ k id, a ≠ .move k (.issue id)) ∧ t.issued = s.issued := by
  cases a with
  | move k m =>
    simp only [step] at h
    split at h
    · next c hk =>
      by_cases hm : ∃ id, m = .issue id
      · obtain ⟨id, rfl⟩ := hm
        simp only [move, Option.ite_none_right_eq_some, Option.some.injEq] at h
        obtain ⟨⟨hpc, hfresh⟩, rfl⟩ := h
        refine .inl ⟨k, id, c, rfl, hk, hpc, hfresh, rfl, { c with pc := .pending id }, ?_, rfl⟩
        rw [getElem?_setPc]
        simp [hk]
      · refine .inr ⟨?_, ?_⟩
        · rintro _ id heq
          cases heq
          exact hm ⟨id, rfl⟩
        · cases moved_of_move h with
          | quiet _ _ _ hissued => exact hissued
          | @issue id => exact absurd ⟨id, rfl⟩ hm
          | spawn => rfl
    · cases h
  | invoke run tool command =>
    cases h
    exact .inr ⟨by simp, rfl⟩
  | reply id allow =>
    cases h
    exact .inr ⟨by simp, reply_issued s id allow⟩
  | cancel run =>
    cases h
    exact .inr ⟨by simp, rfl⟩

/-- An id is for one call, one that asks, and a call has one id at most. -/
structure Numbered (cfg : Cfg) (s : Sys) : Prop where
  ids : (s.issued.map (·.1)).Nodup
  calls : (s.issued.map (·.2)).Nodup
  past : ∀ e ∈ s.issued, ∃ c, s.calls[e.2]? = some c ∧ 1 ≤ c.pc.stage ∧ c.tool = .exec ∧
    cfg.decision c.command = .askUser

theorem numbered_empty (cfg : Cfg) : Numbered cfg .empty :=
  ⟨by simp [Sys.empty], by simp [Sys.empty], by simp [Sys.empty]⟩

theorem numbered_step {a : Act} (hinv : Inv cfg s) (h : Numbered cfg s) (hstep : step cfg s a = some t) :
    Numbered cfg t := by
  have hpast : ∀ e ∈ s.issued, ∃ c, t.calls[e.2]? = some c ∧ 1 ≤ c.pc.stage ∧ c.tool = .exec ∧
      cfg.decision c.command = .askUser := by
    intro e he
    obtain ⟨c, hc, hstage, htool, hask⟩ := h.past e he
    obtain ⟨c', hc', -, htool', hcommand', hstage'⟩ := (grows_step hstep).calls e.2 c hc
    exact ⟨c', hc', Nat.le_trans hstage hstage', htool'.trans htool, hcommand' ▸ hask⟩
  obtain ⟨k, id, c, rfl, hk, hpc, hfresh, hissued, c', hc', hpc'⟩ | ⟨-, hissued⟩ := issued_step hstep
  · have hnew : ∀ e ∈ s.issued, e.2 ≠ k := by
      rintro e he rfl
      obtain ⟨d, hd, hstage, -⟩ := h.past e he
      obtain rfl : c = d := Option.some.inj (hk.symm.trans hd)
      simp [hpc, Pc.stage] at hstage
    refine ⟨?_, ?_, fun e he => ?_⟩
    · rw [hissued]
      exact nodup_map_snoc h.ids hfresh
    · rw [hissued]
      exact nodup_map_snoc h.calls hnew
    · rw [hissued, List.mem_append, List.mem_singleton] at he
      obtain he | rfl := he
      · exact hpast e he
      · have hok := hinv.calls k c hk
        simp only [CallOk, hpc] at hok
        obtain ⟨d, hd, -, htool, hcommand, -⟩ := (grows_step hstep).calls k c hk
        obtain rfl : c' = d := Option.some.inj (hc'.symm.trans hd)
        exact ⟨c', hc', by simp [hpc', Pc.stage], htool.trans hok.1, hcommand ▸ hok.2⟩
  · refine ⟨?_, ?_, ?_⟩ <;> rw [hissued]
    · exact h.ids
    · exact h.calls
    · exact hpast

theorem replies_step {a : Act} (hreply : ∀ id allow, a ≠ .reply id allow) (h : step cfg s a = some t) :
    t.replies = s.replies := by
  cases a with
  | move k m =>
    simp only [step] at h
    split at h
    · cases moved_of_move h with
      | quiet _ _ _ _ hreplies => exact hreplies
      | issue | spawn => rfl
    · cases h
  | reply id allow => exact absurd rfl (hreply id allow)
  | invoke run tool command | cancel run =>
    cases h
    rfl

end Approval

end OhMyClaw
