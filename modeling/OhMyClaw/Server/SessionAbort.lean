import OhMyClaw.Server.SessionLane

/-!
# Aborting a turn that waits

An abort looks at the active run only.  A turn that waits can be named by one all the same,
and then neither flag does what the client wants: a soft abort leaves the turn in the queue,
and it runs when the lane comes to it; a hard one empties the queue, and nobody tells the
client, since only a run that was started speaks to its sink.

    abort_queued    what becomes of a waiting turn that an abort names
-/

namespace OhMyClaw

namespace Actor

/-- What a client that aborts a waiting turn would have of it: the turn never runs, and the
client is told that it is over. -/
def AbortedCleanly (r : String) (a : Actor) : Prop :=
  r ∉ a.startedIds ∧ r ∈ a.terminals

/-- Only a run that was started speaks to its sink. -/
def TerminalsStarted (a : Actor) : Prop :=
  ∀ r ∈ a.terminals, r ∈ a.startedIds

/-- Who was started stays started. -/
theorem startedIds_sub {cfg : ActorCfg} {a b : Actor} {c : Cmd} (h : step cfg a c = some b) :
    ∀ x ∈ a.startedIds, x ∈ b.startedIds := by
  intro x hx
  cases change_of_step h with
  | same hc hsame => rwa [hsame.startedIds]
  | submit hne hnew hissued hsub =>
    cases hsub with
    | started _ _ _ _ _ _ hstarted => simp [hstarted, hx]
    | queued _ _ _ _ _ _ hstarted => rwa [hstarted]
    | rejected _ _ _ _ _ hstarted => rwa [hstarted]
  | hardAbort hsame =>
    rw [← hsame.startedIds] at hx
    exact hx
  | finished hissued hend =>
    cases hend with
    | stale hsame => rwa [hsame.startedIds]
    | idle _ _ _ _ _ _ _ hstarted => rwa [hstarted]
    | next _ _ _ _ _ _ _ _ _ hstarted => simp [hstarted, hx]

/-- A terminal event comes from the active run or was there before. -/
theorem mem_terminals_step {cfg : ActorCfg} {a b : Actor} {c : Cmd} (h : step cfg a c = some b)
    {x : String} (hx : x ∈ b.terminals) : x ∈ a.terminals ∨ a.active.map (·.runId) = some x := by
  obtain ⟨-, -, rfl⟩ := step_eq_some.1 h
  cases c with
  | submit r text sink now =>
    simp only [handle, onSubmit] at hx
    split at hx <;> exact .inl hx
  | finished r o now =>
    simp only [handle, onFinished] at hx
    split at hx
    · split at hx <;> exact .inl hx
    · exact .inl hx
  | abort r hard =>
    simp only [handle, onAbort] at hx
    split at hx
    · split at hx
      · split at hx <;> exact .inl hx
      · split at hx <;> exact .inl hx
    · split at hx <;> exact .inl hx
  | healthScan now =>
    simp only [handle, onHealthScan] at hx
    split at hx
    · split at hx <;> exact .inl hx
    · exact .inl hx
  | evictIfIdle idleAfter now =>
    simp only [handle, onEvictIfIdle] at hx
    split at hx <;> exact .inl hx
  | runTerminal =>
    simp only [handle] at hx
    split at hx
    · next r hact =>
      rw [List.mem_append, List.mem_singleton] at hx
      exact hx.imp_right fun h => by rw [hact, h, Option.map_some]
    · exact .inl hx
  | compact start => exact .inl hx
  | resume r => exact .inl hx
  | runProgress now => exact .inl hx
  | runCancels => exact .inl hx

theorem terminalsStarted_exec {cfg : ActorCfg} {a b : Actor} {cmds : List Cmd}
    (hb : Bookkeeping a) (ht : TerminalsStarted a) (h : Steps.exec (step cfg) a cmds = some b) :
    TerminalsStarted b := by
  refine (Steps.exec_invariant (I := fun a => Bookkeeping a ∧ TerminalsStarted a) ?_ ⟨hb, ht⟩ h).2
  rintro a c b ⟨hb, ht⟩ hs
  refine ⟨bookkeeping_step hb hs, fun x hx => startedIds_sub hs x ?_⟩
  rcases mem_terminals_step hs hx with h | h
  · exact ht x h
  · exact hb.active_started x h

/-- The id is drawn, but the turn neither waits nor was started. -/
structure Gone (r : String) (a : Actor) : Prop where
  issued : r ∈ a.issued
  waiting : r ∉ a.waiting
  started : r ∉ a.startedIds

/-- Nothing puts a drawn id into the queue a second time. -/
theorem gone_step {cfg : ActorCfg} {a b : Actor} {c : Cmd} {r : String} (hg : Gone r a)
    (h : step cfg a c = some b) : Gone r b := by
  obtain ⟨hi, hw, hst⟩ := hg
  cases change_of_step h with
  | same hc hsame => exact ⟨by rwa [hsame.issued], by rwa [hsame.waiting], by rwa [hsame.startedIds]⟩
  | hardAbort hsame =>
    refine ⟨?_, by simp [waiting, RunQueue.pendingIds], ?_⟩
    · rwa [← hsame.issued] at hi
    · rwa [← hsame.startedIds] at hst
  | @submit x _ _ _ _ hne hnew hissued hsub =>
    have hrx : r ≠ x := fun h => hnew (h ▸ hi)
    refine ⟨by simp [hissued, hi], ?_, ?_⟩
    · cases hsub with
      | started _ hqueue => simpa [waiting, RunQueue.pendingIds, hqueue] using hw
      | queued hqueue => simpa [waiting, RunQueue.pendingIds, hqueue, hrx] using hw
      | rejected hqueue => simpa [waiting, RunQueue.pendingIds, hqueue] using hw
    · cases hsub with
      | started _ _ _ _ _ _ hstarted => simp [hstarted, hst, hrx]
      | queued _ _ _ _ _ _ hstarted => rwa [hstarted]
      | rejected _ _ _ _ _ hstarted => rwa [hstarted]
  | finished hissued hend =>
    rw [← hissued] at hi
    cases hend with
    | stale hsame => exact ⟨hi, by rwa [hsame.waiting], by rwa [hsame.startedIds]⟩
    | idle _ hnone hqueue _ _ _ _ hstarted =>
      exact ⟨hi, by simp [waiting, RunQueue.pendingIds, hqueue, hnone], by rwa [hstarted]⟩
    | next turn rest _ hpending hqueue _ _ _ _ hstarted =>
      -- the turn that starts is one that waited
      have hold : a.waiting = turn.runId :: b.waiting := by
        simp [waiting, RunQueue.pendingIds, hqueue, hpending]
      rw [hold, List.mem_cons, not_or] at hw
      exact ⟨hi, hw.2, by simp [hstarted, hst, hw.1]⟩

/-- A turn that waits is not lost but to a hard abort. -/
theorem kept_step {cfg : ActorCfg} {a b : Actor} {c : Cmd} {r : String}
    (hk : r ∈ a.waiting ∨ r ∈ a.startedIds) (hc : ¬ Loses a c) (h : step cfg a c = some b) :
    r ∈ b.waiting ∨ r ∈ b.startedIds := by
  rcases hk with hw | hst
  · cases change_of_step h with
    | same _ hsame => exact .inl (by rwa [hsame.waiting])
    | submit hne hnew hissued hsub =>
      refine .inl ?_
      cases hsub with
      | started _ hqueue => simpa [waiting, RunQueue.pendingIds, hqueue] using hw
      | queued hqueue =>
        rw [waiting, RunQueue.pendingIds, List.mem_map] at hw
        simp [waiting, RunQueue.pendingIds, hqueue, hw]
      | rejected hqueue => simpa [waiting, RunQueue.pendingIds, hqueue] using hw
    | hardAbort hsame => exact absurd (List.ne_nil_of_mem hw) hc
    | finished hissued hend =>
      cases hend with
      | stale hsame => exact .inl (by rwa [hsame.waiting])
      | idle _ hnone => simp [waiting, RunQueue.pendingIds, hnone] at hw
      | next turn rest _ hpending hqueue _ _ _ _ hstarted =>
        have hold : a.waiting = turn.runId :: b.waiting := by
          simp [waiting, RunQueue.pendingIds, hqueue, hpending]
        rw [hold, List.mem_cons] at hw
        rcases hw with rfl | hw
        · exact .inr (by simp [hstarted])
        · exact .inl hw
  · exact .inr (startedIds_sub h r hst)

/-- A soft abort of a waiting turn finds the lane held by another run, so it does nothing. -/
theorem onAbort_soft_waiting {a : Actor} {r : String} (hb : Bookkeeping a) (hw : r ∈ a.waiting) :
    a.onAbort r false = a := by
  simp only [onAbort, Bool.false_eq_true, if_false]
  cases hact : a.active with
  | none => rfl
  | some run =>
    have hne : r ≠ "" := hb.issued_nonempty r (hb.waiting_issued r hw)
    have hother : run.runId ≠ r := by
      rintro rfl
      exact hb.waiting_new _ hw (hb.active_started _ (by simp [hact]))
    simp [hother, hne]

/-- No abort of a waiting turn ends well, whatever follows: a soft one leaves the turn where it
is, and it runs when the lane comes to it; after a hard one it never runs, but its client is
told nothing either. -/
theorem abort_queued {cfg : ActorCfg} {now : Nat} {cmds rest : List Cmd} {a b t : Actor}
    {r : String} {hard : Bool} (hrun : Steps.exec (step cfg) (new cfg now) cmds = some a)
    (hw : r ∈ a.waiting) (habort : step cfg a (.abort r hard) = some b)
    (hrest : Steps.exec (step cfg) b rest = some t) :
    ¬ AbortedCleanly r t ∧
    (hard = false → b = a ∧ (Steps.AllSteps (step cfg) (fun a c _ => ¬ Loses a c) b rest →
      r ∈ t.waiting ∨ r ∈ t.startedIds)) ∧
    (hard = true → r ∉ t.startedIds ∧ r ∉ t.terminals) := by
  have hb : Bookkeeping a := bookkeeping_exec hrun
  have hta : TerminalsStarted a :=
    terminalsStarted_exec (new_bookkeeping cfg now) (by simp [TerminalsStarted, new]) hrun
  have htt : TerminalsStarted t :=
    terminalsStarted_exec hb hta ((Steps.exec_cons_some habort).trans hrest)
  obtain ⟨-, -, rfl⟩ := step_eq_some.1 habort
  refine ⟨fun h => h.1 (htt r h.2), ?_, ?_⟩
  · rintro rfl
    have hsame : handle cfg a (.abort r false) = a := onAbort_soft_waiting hb hw
    rw [hsame] at hrest ⊢
    refine ⟨rfl, fun hall => ?_⟩
    have hstep : ∀ a c b, r ∈ a.waiting ∨ r ∈ a.startedIds → ¬ Loses a c → step cfg a c = some b →
        r ∈ b.waiting ∨ r ∈ b.startedIds := fun a c b hk hc hs => kept_step hk hc hs
    exact Steps.exec_guarded hstep (.inl hw) hall hrest
  · rintro rfl
    have hgone : Gone r (handle cfg a (.abort r true)) := by
      obtain ⟨m, hsame, heq⟩ := onAbort_hard a r
      rw [handle, heq]
      refine ⟨?_, by simp [waiting, RunQueue.pendingIds], ?_⟩
      · rw [hsame.issued]
        exact hb.waiting_issued r hw
      · have hnew := hb.waiting_new r hw
        rwa [← hsame.startedIds] at hnew
    have hgone' : Gone r t :=
      Steps.exec_invariant (I := Gone r) (fun _ _ _ hg hs => gone_step hg hs) hgone hrest
    exact ⟨hgone'.started, fun h => hgone'.started (htt r h)⟩

theorem abort_queued_soft_run :
    ∃ a b t : Actor, Steps.exec (step testCfg) (new testCfg 0) twoTurns = some a ∧
      step testCfg a (.abort "b" false) = some b ∧
      Steps.exec (step testCfg) b [.finished "a" .completed 2, .runTerminal] = some t ∧
      ¬ AbortedCleanly "b" t := by
  have hsome : (Steps.exec (step testCfg) (new testCfg 0)
      (twoTurns ++ [.abort "b" false, .finished "a" .completed 2, .runTerminal])).isSome = true := by
    decide
  have hwait : (Steps.exec (step testCfg) (new testCfg 0) twoTurns).map waiting = some ["b"] := by
    decide
  obtain ⟨t, ht⟩ := Option.isSome_iff_exists.1 hsome
  obtain ⟨a, ha, hrest⟩ := Steps.exec_append_eq_some.1 ht
  obtain ⟨b, hb, hrest⟩ := Steps.exec_cons_eq_some.1 hrest
  rw [ha, Option.map_some, Option.some_inj] at hwait
  exact ⟨a, b, t, ha, hb, hrest, (abort_queued ha (by simp [hwait]) hb hrest).1⟩

/-- The turn is aborted while it waits, and runs once the turn before it has ended. -/
theorem abort_queued_starts :
    ¬ ∀ (cmds rest : List Cmd) (a b t : Actor) (r : String) (hard : Bool),
      Steps.exec (step testCfg) (new testCfg 0) cmds = some a → r ∈ a.waiting →
      step testCfg a (.abort r hard) = some b → Steps.exec (step testCfg) b rest = some t →
      r ∉ t.startedIds := by
  intro h
  have hstarted : (Steps.exec (step testCfg) (new testCfg 0)
      (twoTurns ++ [.abort "b" false, .finished "a" .completed 2])).map startedIds =
      some ["a", "b"] := by decide
  have hwait : (Steps.exec (step testCfg) (new testCfg 0) twoTurns).map waiting = some ["b"] := by
    decide
  obtain ⟨t, ht, hids⟩ := Option.map_eq_some_iff.1 hstarted
  obtain ⟨a, ha, hrest⟩ := Steps.exec_append_eq_some.1 ht
  obtain ⟨b, hb, hrest⟩ := Steps.exec_cons_eq_some.1 hrest
  rw [ha, Option.map_some, Option.some_inj] at hwait
  exact h _ _ a b t "b" false ha (by simp [hwait]) hb hrest (by simp [hids])

end Actor

end OhMyClaw
