import OhMyClaw.Server.CronPushes

/-!
# Reminders after a removal

A removal deletes the row, and the method of the protocol answers that it succeeded whatever it
found.  A scan that has read the row before goes on by what it read, and a task that fires once has
been deleted by its own scan or timer while its turn is going on.

    quiet_of_settled      nothing is pushed behind an acknowledged removal as long as no reminder is on its
                          way when the acknowledgement goes out
    quiet_fails_snapshot  a recurring task in the hands of a scan
-/

namespace OhMyClaw

namespace CronWorld

/-- No reminder of a task stands behind an acknowledged removal. -/
def Quiet (w : CronWorld) : Prop :=
  ∀ id, (Ledger.under id w.log).Pairwise fun a b => a = .removed → b.push? = none

/-- A scan or a timer will push the task without looking at the table again. -/
def Owes (w : CronWorld) (id : String) : Prop :=
  Scanning w id ∨ Timing w id ∨
    ∃ sc ∈ w.scan, id ∈ sc.due ∧ ∃ row, sc.rows.find? (·.id = id) = some row ∧ isOnce row.expr = false

/-- A removal is acknowledged when no reminder of its task is on its way. -/
def Settled (w : CronWorld) : Act → Prop
  | .ack id => ¬ Owes w id
  | _ => True

structure RemovedInv (w : CronWorld) : Prop where
  gone : ∀ id, (id, CronEvent.removed) ∈ w.log → ¬ w.db.Has id ∧ ¬ Owes w id
  acks : ∀ id ∈ w.acks, ¬ w.db.Has id
  quiet : Quiet w

section Steps

variable {cfg : CronCfg} {w w' : CronWorld} {a : Act}

theorem phase_of_push {Z : Zones} {answer : String} {clock : Int} {db : CronDb} {j : CronJob} {p : Push}
    (h : (j.advance Z answer clock db).2.1 = some p) : j.phase = .turn := by
  cases hphase : j.phase with
  | claim => simp [CronJob.advance, hphase] at h
  | turn => rfl
  | mark => simp [CronJob.advance, hphase] at h

/-- A turn begins with a row that was still there. -/
theorem has_of_turn {Z : Zones} {answer : String} {clock : Int} {db : CronDb} {j j' : CronJob}
    (h : (j.advance Z answer clock db).2.2 = some j') (hturn : j'.phase = .turn) :
    j'.row = j.row ∧ db.Has j.row.id := by
  cases hphase : j.phase with
  | claim =>
    simp only [CronJob.advance, hphase, Option.ite_none_right_eq_some, Option.some.injEq] at h
    obtain ⟨hhit, rfl⟩ := h
    exact ⟨rfl, CronDb.cronRm_fst.1 hhit⟩
  | turn =>
    simp only [CronJob.advance, hphase, Option.ite_none_left_eq_some, Option.some.injEq] at h
    obtain ⟨-, rfl⟩ := h
    simp at hturn
  | mark => simp [CronJob.advance, hphase] at h

theorem removed_mem_entries {id k : String} {p : Option Push} {log : List (String × CronEvent)} :
    (id, CronEvent.removed) ∈ log ++ entries k p ↔ (id, CronEvent.removed) ∈ log := by
  cases p <;> simp [entries]

/-- The steps that push nothing and acknowledge nothing: no row comes back, and nothing new is owed but what is
in the table. -/
theorem removedInv_mono (hI : RemovedInv w) (hlog : w'.log = w.log) (hacks : ∀ id ∈ w'.acks, id ∈ w.acks)
    (hhas : ∀ id, w'.db.Has id → w.db.Has id) (howes : ∀ id, Owes w' id → Owes w id ∨ w.db.Has id) :
    RemovedInv w' where
  gone := fun id hid => by
    obtain ⟨hgone, hnone⟩ := hI.gone id (hlog ▸ hid)
    exact ⟨fun h => hgone (hhas id h), fun h => (howes id h).elim hnone hgone⟩
  acks := fun id hid h => hI.acks id (hacks id hid) (hhas id h)
  quiet := by
    unfold Quiet
    rw [hlog]
    exact hI.quiet

/-- A job goes on: what it pushes was owed. -/
theorem removedInv_job (hI : RemovedInv w) {j : CronJob} {answer : String}
    (howed : j.phase = .turn → Owes w j.row.id) (hlog : w'.log = w.log ++ entries j.row.id
      (j.advance cfg.zones answer w.now w.db).2.1) (hacks : w'.acks = w.acks)
    (hdb : w'.db = (j.advance cfg.zones answer w.now w.db).1)
    (howes : ∀ id, Owes w' id → Owes w id ∨ w.db.Has id) : RemovedInv w' where
  gone := fun id hid => by
    rw [hlog, removed_mem_entries] at hid
    obtain ⟨hgone, hnone⟩ := hI.gone id hid
    refine ⟨fun h => hgone ?_, fun h => (howes id h).elim hnone hgone⟩
    rw [hdb] at h
    exact has_of_advance h
  acks := fun id hid h => by
    rw [hdb] at h
    exact hI.acks id (hacks ▸ hid) (has_of_advance h)
  quiet := by
    intro id
    rw [hlog]
    cases hpush : (j.advance cfg.zones answer w.now w.db).2.1 with
    | none =>
      show (Ledger.under id (w.log ++ [])).Pairwise _
      rw [List.append_nil]
      exact hI.quiet id
    | some p =>
      show (Ledger.under id (w.log ++ [(j.row.id, .pushed p)])).Pairwise _
      by_cases hid : j.row.id = id
      · subst hid
        rw [Ledger.under_snoc_self]
        refine List.pairwise_append.2 ⟨hI.quiet _, List.pairwise_singleton _ _, fun e he e' _ hremoved => ?_⟩
        rw [hremoved, Ledger.mem_under] at he
        exact absurd (howed (phase_of_push hpush)) (hI.gone _ he).2
      · rw [Ledger.under_snoc_ne hid]
        exact hI.quiet id

theorem removed_step (hs : Sound w) (hI : RemovedInv w) (hm : Moves cfg w a w') (hsettled : Settled w a) :
    RemovedInv w' := by
  cases hm with
  | tick hnow => exact removedInv_mono hI rfl (fun _ h => h) (fun _ h => h) fun _ h => Or.inl h
  | refuse | refuseTool | refuseDelay => exact hI
  | @insert a c timer db hadds hfresh hdb =>
    have hhas : ∀ id, id ≠ c.id → db.Has id → w.db.Has id := fun id hne h =>
      ((CronDb.has_cronAdd hdb).1 h).resolve_right hne
    refine ⟨fun id hid => ?_, fun id hid h => ?_, hI.quiet⟩
    · obtain ⟨hgone, hnone⟩ := hI.gone id hid
      have hne : id ≠ c.id := fun h => hfresh.2.2 (List.mem_map.2 ⟨_, hid, h⟩)
      refine ⟨fun h => hgone (hhas id hne h), ?_⟩
      rintro (h | htiming | h)
      · exact hnone (Or.inl h)
      · exact hnone (Or.inr (Or.inl (timing_of_insert htiming)))
      · exact hnone (Or.inr (Or.inr h))
    · have hne : id ≠ c.id := fun h' => hfresh.2.1 (h' ▸ hid)
      exact hI.acks id hid (hhas id hne h)
  | @remove a id acks ha hacks =>
    refine ⟨fun id' hid => ?_, fun id' hid h => ?_, hI.quiet⟩
    · obtain ⟨hgone, hnone⟩ := hI.gone id' hid
      exact ⟨fun h => hgone (CronDb.has_cronRm.1 h).1, hnone⟩
    · obtain ⟨hhas, hne⟩ := CronDb.has_cronRm.1 h
      rcases hacks with rfl | rfl
      · rcases List.mem_append.1 hid with hold | hnew
        · exact hI.acks id' hold hhas
        · exact hne (List.mem_singleton.1 hnew)
      · exact hI.acks id' hid hhas
  | @ack id hid =>
    refine ⟨fun id' hid' => ?_, fun id' hid' => hI.acks id' (List.mem_of_mem_erase hid'), fun id' => ?_⟩
    · rcases List.mem_append.1 hid' with hid' | hid'
      · exact hI.gone id' hid'
      · obtain rfl : id' = id := by simpa using hid'
        exact ⟨hI.acks id' hid, hsettled⟩
    · show (Ledger.under id' (w.log ++ [(id, .removed)])).Pairwise _
      by_cases hne : id = id'
      · subst hne
        rw [Ledger.under_snoc_self]
        refine List.pairwise_append.2 ⟨hI.quiet _, List.pairwise_singleton _ _, fun e _ e' he' _ => ?_⟩
        rw [List.mem_singleton.1 he']
        rfl
      · rw [Ledger.under_snoc_ne hne]
        exact hI.quiet id'
  | @beat clock hclock hscan =>
    refine removedInv_mono hI rfl (fun _ h => h) (fun _ h => h) fun id howes => ?_
    rcases howes with ⟨sc, hsc, j, hj, -⟩ | h | ⟨sc, hsc, hid, row, hrow, -⟩
    · obtain rfl := Option.some.inj hsc
      simp [CronScan.start] at hj
    · exact Or.inl (Or.inr (Or.inl h))
    · obtain rfl := Option.some.inj hsc
      have hrowid : row.id = id := by simpa using List.find?_some hrow
      exact Or.inr ⟨row, CronDb.mem_cronList.1 (List.mem_of_find?_eq_some hrow), hrowid⟩
  | @scanJob sc j answer hscan hjob =>
    refine removedInv_job hI (fun hturn => Or.inl ⟨sc, hscan, j, hjob, hturn, rfl⟩) rfl rfl rfl fun id howes => ?_
    rcases howes with ⟨sc', hsc, j', hj', hturn, rfl⟩ | h | ⟨sc', hsc, h⟩
    · obtain rfl := Option.some.inj hsc
      obtain ⟨hrow, hhas⟩ := has_of_turn hj' hturn
      exact Or.inr (hrow ▸ hhas)
    · exact Or.inl (Or.inr (Or.inl h))
    · obtain rfl := Option.some.inj hsc
      exact Or.inl (Or.inr (Or.inr ⟨sc, hscan, h⟩))
  | @scanNext sc id answer due hscan hjob hdue =>
    refine removedInv_mono hI rfl (fun _ h => h) (fun _ h => h) fun id' howes => Or.inl ?_
    rcases howes with ⟨sc', hsc, j, hj, hturn, hid⟩ | h | ⟨sc', hsc, hid, h⟩
    · obtain rfl := Option.some.inj hsc
      obtain ⟨row, hrow, rfl⟩ := Option.map_eq_some_iff.1 hj
      have hrowid : row.id = id := by simpa using List.find?_some hrow
      obtain rfl : id = id' := hrowid.symm.trans hid
      refine Or.inr (Or.inr ⟨sc, hscan, hdue ▸ List.mem_cons_self, row, hrow, ?_⟩)
      by_contra honce
      exact not_turn_start (by simpa using honce) _ hturn
    · exact Or.inr (Or.inl h)
    · obtain rfl := Option.some.inj hsc
      exact Or.inr (Or.inr ⟨sc, hscan, hdue ▸ List.mem_cons_of_mem _ hid, h⟩)
  | scanEnd hscan hjob hdue =>
    refine removedInv_mono hI rfl (fun _ h => h) (fun _ h => h) fun id howes => Or.inl ?_
    rcases howes with ⟨sc, hsc, -⟩ | h | ⟨sc, hsc, -⟩
    · simp at hsc
    · exact Or.inr (Or.inl h)
    · simp at hsc
  | @timerJob id answer j htimer =>
    obtain ⟨hjid, -⟩ := hs.timerJob id j htimer
    refine removedInv_job hI (fun hturn => Or.inr (Or.inl ⟨j, hjid ▸ htimer, hturn⟩)) rfl rfl rfl fun id' howes => ?_
    rcases howes with h | ⟨j', hj', hturn⟩ | h
    · exact Or.inl (Or.inl h)
    · dsimp only at hj'
      split at hj'
      · rcases IdMap.of_lookup_insert hj' with ⟨rfl, hnext⟩ | ⟨-, hold⟩
        · exact Or.inr (hjid ▸ (has_of_turn hnext.symm hturn).2)
        · exact Or.inl (Or.inr (Or.inl ⟨j', hold, hturn⟩))
      · exact Or.inl (Or.inr (Or.inl ⟨j', (IdMap.of_lookup_erase hj').2, hturn⟩))
    · exact Or.inl (Or.inr (Or.inr h))
  | @timerWake id answer row htimer hrow hid =>
    refine removedInv_mono hI rfl (fun _ h => h) (fun _ h => h) fun id' howes => ?_
    rcases howes with h | ⟨j, hj, hturn⟩ | h
    · exact Or.inl (Or.inl h)
    · rcases IdMap.of_lookup_insert hj with ⟨rfl, -⟩ | ⟨-, hj⟩
      · exact Or.inr ⟨row, hrow, hid⟩
      · exact Or.inl (Or.inr (Or.inl ⟨j, hj, hturn⟩))
    · exact Or.inl (Or.inr (Or.inr h))
  | timerEnd htimer =>
    refine removedInv_mono hI rfl (fun _ h => h) (fun _ h => h) fun id' howes => Or.inl ?_
    rcases howes with h | ⟨j, hj, hturn⟩ | h
    · exact Or.inl h
    · exact Or.inr (Or.inl ⟨j, (IdMap.of_lookup_erase hj).2, hturn⟩)
    · exact Or.inr (Or.inr h)
  | restart =>
    refine removedInv_mono hI rfl (fun _ h => h) (fun _ h => h) fun id' howes => ?_
    rcases howes with ⟨sc, hsc, -⟩ | ⟨j, hj, -⟩ | ⟨sc, hsc, -⟩
    · simp at hsc
    · simp at hj
    · simp at hsc

end Steps

/-- Nothing is pushed behind an acknowledged removal, in any run where every acknowledgement goes out when no
reminder of the task is on its way. -/
theorem quiet_of_settled (cfg : CronCfg) (now : Int) (as : List Act)
    (hsettled : Steps.AllSteps (step cfg) (fun w a _ => Settled w a) (init now) as) :
    Steps.AllStates (step cfg) Quiet (init now) as := by
  have hinit : Sound (init now) ∧ RemovedInv (init now) :=
    ⟨sound_init now, by simp [init], by simp [init], by simp [Quiet, init]⟩
  have hstep : ∀ w a w', Sound w ∧ RemovedInv w → Settled w a → step cfg w a = some w' →
      Sound w' ∧ RemovedInv w' := fun _ _ _ hI ha h =>
    ⟨sound_step hI.1 (moves_of_step h), removed_step hI.1 hI.2 (moves_of_step h) ha⟩
  exact Steps.allStates_of_guarded hstep (fun _ hI => hI.2.quiet) hinit hsettled

/-- Removed before any scan. -/
theorem quiet_of_settled_tea :
    Steps.AllStates (step testCron) Quiet (init 0)
      [.delay 10 "tea" 0 "c", .rm "c", .ack "c", .tick 10, .beat 10] := by
  refine quiet_of_settled testCron 0 _ ?_
  have hidle : Steps.AllSteps (step testCron)
      (fun w _ _ => w.scan = none ∧ ∀ e ∈ w.timers.entries, e.2 = none) (init 0)
      [.delay 10 "tea" 0 "c", .rm "c", .ack "c", .tick 10, .beat 10] := by
    decide
  refine hidle.mono fun w a _ _ h => ?_
  cases a with
  | ack id =>
    rintro (⟨sc, hsc, -⟩ | ⟨j, hj, -⟩ | ⟨sc, hsc, -⟩)
    · rw [h.1] at hsc
      simp at hsc
    · have hnone := h.2 _ (AList.mem_lookup_iff.1 hj)
      simp at hnone
    · rw [h.1] at hsc
      simp at hsc
  | _ => trivial

def everyMinute : CronAddParams := { expr := "* * * * *", prompt := "tick", tz := "UTC" }

/-- A scan has read the table when the task is removed. -/
theorem quiet_fails_snapshot :
    ¬ ∀ (cfg : CronCfg) (now : Int) (as : List Act), Steps.AllStates (step cfg) Quiet (init now) as := by
  intro h
  obtain ⟨w, hrun, hlog⟩ : ∃ w, Steps.exec (step testCron) (init 0)
      [.add everyMinute 0 "c", .tick 60, .beat 60, .rm "c", .ack "c", .scan "", .scan "now"] = some w ∧
      Ledger.under "c" w.log = [.removed, .pushed { text := "now", slot := some 60, clock := 60, sentAt := 60 }] := by
    refine Option.map_eq_some_iff.1 (?_ : Option.map (fun w : CronWorld => Ledger.under "c" w.log) _ = some _)
    decide
  have hquiet := Steps.allStates_iff.1 (h testCron 0 _) _ w (List.prefix_refl _) hrun "c"
  rw [hlog] at hquiet
  have hnone := (List.pairwise_cons.1 hquiet).1 _ (List.mem_singleton.2 rfl) rfl
  simp [CronEvent.push?] at hnone

end CronWorld

end OhMyClaw
