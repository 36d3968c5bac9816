import OhMyClaw.Server.Detached

/-!
# A resumed run and its end

A client whose request to resume a run was answered `true` waits for the run's terminal.  It
gets it as long as the run has yet to push it, or the replay still has it: the final record is
stored and marked behind the terminal, and a client that names the seq of that record gets a
replay from behind it.  A run that panics, and a turn that is taken out of the queue, push no
terminal at all.

    end_delivered         who follows the run hears its end, as long as no step is a `Loses`
    end_delivered_fails   a client that has read the whole history resumes the finished run
-/

namespace OhMyClaw

namespace Detached

open Run (Drive)

/-- The run does nothing any more. -/
def ended (x : Detached) : Bool :=
  match x.phase with
  | .waiting => false
  | .driving d => (d.pc matches .done _)
  | .dropped => true

/-- Once the run is over, all who resumed it and are still there have been told its end. -/
def EndDelivered (x : Detached) : Prop :=
  x.ended = true → ∀ s ∈ x.log.subs, s.live = true → ∃ e ∈ forwarded s, e.isTerminal = true

def Followed (x : Detached) : Prop := ∃ s ∈ x.log.subs, s.live = true

/-- The run has pushed no terminal yet and goes on. -/
def Ahead (x : Detached) : Prop :=
  match x.phase with
  | .waiting => True
  | .driving d => NoEnd d.events ∧ ∀ o, d.pc ≠ .done o
  | .dropped => False

/-- A terminal is among the last events the log keeps, and no record with a seq up to
`sinceSeq` was marked behind it. -/
def InReplay (x : Detached) (sinceSeq : Int) : Prop :=
  ∃ i e, x.events[i]? = some e ∧ e.isTerminal = true ∧ x.events.length ≤ i + logCap ∧
    ∀ m ∈ x.log.marks, m.1 ≤ sinceSeq → m.2 ≤ i

/-- The steps after which a client may wait for ever. -/
def Loses (x : Detached) : Act → Prop
  | .run .panic => Followed x
  | .hardAbort => x.phase = .waiting ∧ Followed x
  | .resume sinceSeq => x.logged = true ∧ ¬ Ahead x ∧ ¬ InReplay x sinceSeq
  | _ => False

/-- All who follow the run have its end, or it is still to come. -/
def Hears (x : Detached) : Prop :=
  ∀ s ∈ x.log.subs, s.live = true → (∃ e ∈ s.received, e.isTerminal = true) ∨ Ahead x

theorem Hears.endDelivered {x : Detached} (h : Hears x) : EndDelivered x := by
  intro hended s hs hlive
  rcases h s hs hlive with hend | hahead
  · exact List.exists_mem_upTo hend
  · unfold ended at hended
    unfold Ahead at hahead
    cases hphase : x.phase with
    | waiting => simp [hphase] at hended
    | driving d =>
      simp only [hphase] at hended hahead
      split at hended
      · next o hpc => exact absurd hpc (hahead.2 o)
      · simp at hended
    | dropped => simp [hphase] at hahead

theorem Hears.of_same {x y : Detached} (h : Hears x) (hsubs : y.log.subs = x.log.subs)
    (hphase : y.phase = x.phase) : Hears y := by
  intro s hs hlive
  have hahead : Ahead y = Ahead x := by simp only [Ahead, hphase]
  rw [hahead]
  exact h s (hsubs ▸ hs) hlive

/-- A driver that has something to say either has not come to its end or has told it. -/
theorem ahead_or_end {told : String} {d : Drive} (h : Run.Voiced told d) :
    (NoEnd d.events ∧ ∀ o, d.pc ≠ .done o) ∨ ∃ e ∈ d.events, e.isTerminal = true := by
  rcases Run.Pc.Voiced.noEnd_or_hasEnd h with hno | hend
  · refine Or.inl ⟨hno, fun o hpc => ?_⟩
    have hdone : HasEnd d.events := Run.voiced_pc h hpc
    obtain ⟨e, he, hterm⟩ := hdone.terminal
    simp [hno e he] at hterm
  · exact Or.inr hend.terminal

/-- The driver pushes `es` and is then in `d`, where it has no end, or told it among `es`. -/
theorem hears_push {x y : Detached} {d : Drive} (h : Hears x) {es : List Event}
    (hsubs : y.log.subs = x.log.subs.map (hear es)) (hphase : y.phase = .driving d)
    (hd : Followed x → Ahead x →
      (NoEnd d.events ∧ ∀ o, d.pc ≠ .done o) ∨ ∃ e ∈ es, e.isTerminal = true) : Hears y := by
  intro t ht hlive
  rw [hsubs, List.mem_map] at ht
  obtain ⟨s, hs, rfl⟩ := ht
  have hslive : s.live = true := by
    unfold hear at hlive
    split at hlive <;> simpa using hlive
  have hreceived : (hear es s).received = s.received ++ es := by simp [hear, hslive]
  rw [hreceived]
  rcases h s hs hslive with ⟨e, he, hterm⟩ | hahead
  · exact Or.inl ⟨e, List.mem_append_left _ he, hterm⟩
  · rcases hd ⟨s, hs, hslive⟩ hahead with hgo | ⟨e, he, hterm⟩
    · right
      simp only [Ahead, hphase]
      exact hgo
    · exact Or.inl ⟨e, List.mem_append_right _ he, hterm⟩

theorem drive_hears {ctx : RunCtx} (hsink : ctx.sink = .detached) {x : Detached} {d d' : Drive}
    {a : Run.Act} {log : RunLog} (hk : Kept x) (h : Hears x) (hphase : x.phase = .driving d)
    (hsubs : log.subs = x.log.subs) (ha : Followed x → a ≠ .panic)
    (hstep : Run.step ctx d a = some d') : Hears (x.drive log d d') := by
  have hpushed : (x.drive log d d').log.subs = x.log.subs.map (hear (fresh d d')) := by
    show (pushAll log (fresh d d')).subs = _
    rw [pushAll_subs, hsubs]
  refine hears_push h hpushed rfl fun hfollowed hahead => ?_
  simp only [Ahead, hphase] at hahead
  rcases hk.voiced d hphase with hvoiced | hsilent
  · rcases ahead_or_end (Run.step_voiced hsink hvoiced (ha hfollowed) hstep) with hgo | hend
    · exact Or.inl hgo
    · -- The terminal was not there before this leg.
      obtain ⟨e, he, hterm⟩ := hend
      rw [events_fresh hstep, List.mem_append] at he
      rcases he with he | he
      · simp [hahead.1 e he] at hterm
      · exact Or.inr ⟨e, he, hterm⟩
  · exact absurd hsilent.pc (hahead.2 _)

theorem mem_replay {x : Detached} {sinceSeq : Int} (hk : Kept x) (h : InReplay x sinceSeq) :
    ∃ e ∈ (x.log.ring.skip (x.log.replayFrom sinceSeq)).filter (Event.replayed false),
      e.isTerminal = true := by
  obtain ⟨i, e, hi, hterm, hcap, hmarks⟩ := h
  have hfrom : x.log.replayFrom sinceSeq ≤ i := by
    unfold RunLog.replayFrom
    split
    · next m hm =>
      have hseq : m.1 ≤ sinceSeq := by simpa using List.find?_some hm
      exact hmarks m (by simpa using List.mem_of_find?_eq_some hm) hseq
    · exact Nat.zero_le i
  refine ⟨e, ?_, hterm⟩
  rw [hk.ring.skip_eq, List.mem_filter]
  constructor
  · have hget : (x.events.drop (max (x.log.replayFrom sinceSeq) (x.events.length - logCap)))[
        i - max (x.log.replayFrom sinceSeq) (x.events.length - logCap)]? = some e := by
      rw [List.getElem?_drop, ← hi]
      congr 1
      omega
    exact List.mem_of_getElem? hget
  · cases e with
    | lifecycle session runId phase => rfl
    | _ => simp [Event.isTerminal, Event.lifecycle?] at hterm

theorem step_hears {ctx : RunCtx} (hsink : ctx.sink = .detached) {x y : Detached} {a : Act}
    (hk : Kept x) (h : Hears x) (hkeeps : ¬ Loses x a) (hstep : step ctx x a = some y) : Hears y := by
  have hky := step_kept hsink hk hstep
  cases change_of_step hstep with
  | begin hphase =>
    have hahead : Ahead x := by simp [Ahead, hphase]
    refine hears_push h (pushAll_subs _ _) rfl fun _ _ => ?_
    rcases hky.voiced _ rfl with hvoiced | hsilent
    · exact ahead_or_end hvoiced
    · have hpc : (Run.start ctx).pc = .sending (Run.lifecycle ctx .start) .started :=
        Run.emitInline_pc _ _ _ _
      have hdone := hsilent.pc
      rw [hpc] at hdone
      simp at hdone
  | stored hphase hanswer hrun =>
    exact drive_hears hsink hk h hphase (marked_subs x) (fun _ => by simp) hrun
  | @run d d' a hphase ha hrun =>
    refine drive_hears hsink hk h hphase rfl (fun hfollowed hpanic => ?_) hrun
    subst hpanic
    exact hkeeps hfollowed
  | commit hseq hws => exact h.of_same rfl rfl
  | refuse hws => exact h.of_same rfl rfl
  | foreign hseq => exact h.of_same rfl rfl
  | read => exact h.of_same rfl rfl
  | @resume sinceSeq hlogged =>
    intro t ht hlive
    simp only [RunLog.subscribeFrom, List.mem_append, List.mem_singleton] at ht
    rcases ht with ht | rfl
    · exact h t ht hlive
    · by_cases hahead : Ahead x
      · exact Or.inr hahead
      · have hin : InReplay x sinceSeq := by
          by_contra hno
          exact hkeeps ⟨hlogged, hahead, hno⟩
        exact Or.inl (mem_replay hk hin)
  | unknown hlogged => exact h
  | @leave i =>
    intro t ht hlive
    obtain ⟨j, hj⟩ := List.mem_iff_getElem?.1 ht
    exact h t (List.mem_of_getElem? (RunLog.getElem?_unsubscribe hj hlive)) hlive
  | drop hphase =>
    intro t ht hlive
    exact absurd ⟨hphase, t, ht, hlive⟩ hkeeps
  | noDrop hphase => exact h
  | finished hphase hpc => exact h.of_same rfl rfl

/-- Whoever resumes a run and stays is told its end, in every state in which the run is over, as
long as the run does not panic and is not taken out of the queue under the eyes of a client,
and no client resumes it from behind its end. -/
theorem end_delivered (ctx : RunCtx) (hsink : ctx.sink = .detached) (lastSeq : Int) (acts : List Act)
    (hkeeps : Steps.AllSteps (step ctx) (fun x a _ => ¬ Loses x a) (accepted lastSeq) acts) :
    Steps.AllStates (step ctx) EndDelivered (accepted lastSeq) acts := by
  refine Steps.allStates_of_guarded (I := fun x => Kept x ∧ Hears x) ?_ (fun _ h => h.2.endDelivered)
    ⟨accepted_kept lastSeq, ?_⟩ hkeeps
  · rintro x a y ⟨hk, hh⟩ hr hstep
    exact ⟨step_kept hsink hk hstep, step_hears hsink hk hh hr hstep⟩
  · simp [Hears, accepted, RunLog.new]

/-- The user's message is stored, the run answers, and its answer is stored. -/
def answered : List Act :=
  [.foreign 1, .begin, .run (.sent true), .run .opened, .run (.delta (.text "ok") ""),
    .run (.sent true), .run .streamEnd, .run (.sent true), .commit 2, .run (.stored true)]

theorem end_delivered_early :
    Steps.AllStates (step webCtx) EndDelivered (accepted 0) ([.resume 0] ++ answered) := by
  refine end_delivered webCtx rfl 0 _ ?_
  simp [answered, Steps.AllSteps, Loses, Ahead, accepted]

/-- The client has read the history up to the answer, and resumes the run before the actor
learns that it is over. -/
theorem end_delivered_fails :
    ¬ ∀ (ctx : RunCtx), ctx.sink = .detached → ∀ (lastSeq : Int) (acts : List Act),
      Steps.AllStates (step ctx) EndDelivered (accepted lastSeq) acts := by
  intro h
  have hall := h webCtx rfl 0 (answered ++ [.read, .resume 2])
  have hrun : (Steps.exec (step webCtx) (accepted 0) (answered ++ [.read, .resume 2])).map
      (fun x => (x.reads, x.log.subs, x.ended)) =
      some ([2], [{ live := true, received := [] }], true) := by
    decide
  obtain ⟨x, hx, hfinal⟩ := Option.map_eq_some_iff.1 hrun
  simp only [Prod.mk.injEq] at hfinal
  obtain ⟨-, hsubs, hended⟩ := hfinal
  have hmem : { live := true, received := [] } ∈ x.log.subs := by simp [hsubs]
  obtain ⟨e, he, -⟩ :=
    Steps.allStates_iff.1 hall _ x (List.prefix_refl _) hx hended _ hmem rfl
  simp [forwarded] at he

end Detached

end OhMyClaw
