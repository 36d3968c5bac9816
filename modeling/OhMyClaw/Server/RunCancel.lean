import OhMyClaw.Server.RunLegs

/-!
# Cancellation and tools

The cancel token of a run is one branch of an unordered wait for the model, so a stream that
has an item ready may be read on after the token is set; between the end of a turn and the
tool nothing looks at the token at all.  The one place where a tool is started is the leg
behind its start event, and there it is started whatever the token says.

Which calls reach a tool, because the tool is known and the arguments parse, is the
parameter `invokes`.

    no_tool_after_cancel_iff        when no tool starts once the token is set
    no_tool_after_cancel_fails      an abort while the call is being stored
-/

namespace OhMyClaw

namespace Run

/-- The leg from `s` to `t` starts a tool. -/
def StartsTool (invokes : ToolCallSpec → Bool) (s t : Drive) : Prop :=
  ∃ call, t.pc = .toolRunning call ∧ s.pc ≠ .toolRunning call ∧ invokes call = true

/-- Once the token is set, no later leg starts a tool, nor does the leg that loses the
connection and sets it. -/
def NoToolAfterCancel (ctx : RunCtx) (invokes : ToolCallSpec → Bool) (acts : List Act) : Prop :=
  (∀ early late s, acts = early ++ late → Steps.exec (step ctx) (start ctx) early = some s →
    s.cancelled = true → Steps.AllSteps (step ctx) (fun s _ t => ¬ StartsTool invokes s t) s late) ∧
  Steps.AllSteps (step ctx) (fun s a t => a = .sent false → ¬ StartsTool invokes s t) (start ctx) acts

/-- The sink takes a tool's start event while the token is not set. -/
def StartsUncancelled (ctx : RunCtx) (invokes : ToolCallSpec → Bool) (s : Drive) (a : Act)
    (_ : Drive) : Prop :=
  ∀ ev call ok, s.pc = .sending ev (.exec call) → a = .sent ok → ctx.tools = true →
    invokes call = true → s.cancelled = false ∧ ok = true

/-! ## Where tools are started -/

theorem Onward.not_startsTool {s s' t : Drive} (h : Onward s t) (invokes : ToolCallSpec → Bool) :
    ¬ StartsTool invokes s' t := by
  rintro ⟨call, hpc, -, -⟩
  exact h.noTool call hpc

/-- Of all legs, only one that waits for a tool's start event can start a tool. -/
theorem exec_of_startsTool {ctx : RunCtx} {invokes : ToolCallSpec → Bool} {s t : Drive} {a : Act}
    (h : step ctx s a = some t) (hs : StartsTool invokes s t) :
    ∃ ev call ok, s.pc = .sending ev (.exec call) ∧ a = .sent ok ∧ ctx.tools = true ∧
      invokes call = true := by
  have hsame (hpc : t.pc = s.pc) : ¬ StartsTool invokes s t := by
    rintro ⟨call, ht, hs, -⟩
    exact hs (hpc ▸ ht)
  cases leg_of_step h with
  | @sent ev k ok hpc hok =>
    by_cases hk : ∃ call, k = .exec call
    · obtain ⟨call, rfl⟩ := hk
      by_cases htools : ctx.tools = true
      · obtain ⟨call', ht, -, hinv⟩ := hs
        rw [onSent, afterSend_exec htools] at ht
        obtain rfl := Pc.toolRunning.inj ht
        exact ⟨ev, call, ok, hpc, rfl, htools, hinv⟩
      · exact absurd hs ((afterSend_exec_onward htools call ok _).not_startsTool invokes)
    · exact absurd hs ((afterSend_onward (fun call hc => hk ⟨call, hc⟩) ok _).not_startsTool invokes)
  | opened hpc => exact absurd hs ((onward_pc (by simp)).not_startsTool invokes)
  | openFailed hpc => exact absurd hs ((stopWith_onward ctx _ _).not_startsTool invokes)
  | closed hpc hsink => exact absurd hs ((stopWith_onward ctx _ _).not_startsTool invokes)
  | delta hpc => exact absurd hs ((onDelta_onward _ _ hpc).not_startsTool invokes)
  | streamErr hpc => exact absurd hs ((stopWith_onward ctx _ _).not_startsTool invokes)
  | streamEnd hpc => exact absurd hs ((advance_onward (by simp) s).not_startsTool invokes)
  | cancelled hpc hcancel => exact absurd hs ((stopWith_onward ctx _ _).not_startsTool invokes)
  | idle hpc => exact absurd hs ((advance_onward (by simp) _).not_startsTool invokes)
  | stored hpc => exact absurd hs ((afterPersist_onward ctx _ _).not_startsTool invokes)
  | toolDone hpc => exact absurd hs ((emitInline_onward ctx _ _ s).not_startsTool invokes)
  | side hpumps hok => exact absurd hs (hsame rfl)
  | abort => exact absurd hs (hsame rfl)
  | runTimeout ht hfirst hpc => exact absurd hs ((emitInline_onward ctx _ _ _).not_startsTool invokes)
  | panic hpc =>
    have hdone : Onward { s with stopped := some .panicked }
        { s with stopped := some .panicked, pc := .done .panicked } := onward_pc (by simp)
    exact absurd hs (hdone.not_startsTool invokes)

theorem startsTool_of_exec {ctx : RunCtx} {invokes : ToolCallSpec → Bool} {s t : Drive} {ev : Event}
    {call : ToolCallSpec} {ok : Bool} (h : step ctx s (.sent ok) = some t)
    (hpc : s.pc = .sending ev (.exec call)) (htools : ctx.tools = true) (hinv : invokes call = true) :
    StartsTool invokes s t := by
  cases leg_of_step h with
  | @sent ev' k ok hpc' hok =>
    obtain ⟨-, rfl⟩ := Pc.sending.inj (hpc.symm.trans hpc')
    refine ⟨call, ?_, by simp [hpc], hinv⟩
    rw [onSent, afterSend_exec htools]

/-- A leg starts a tool exactly if it is the one behind a start event that finds an executor. -/
theorem startsTool_iff {ctx : RunCtx} {invokes : ToolCallSpec → Bool} {s t : Drive} {a : Act}
    (h : step ctx s a = some t) :
    StartsTool invokes s t ↔ ∃ ev call ok, s.pc = .sending ev (.exec call) ∧ a = .sent ok ∧
      ctx.tools = true ∧ invokes call = true := by
  constructor
  · exact exec_of_startsTool h
  · rintro ⟨ev, call, ok, hpc, rfl, htools, hinv⟩
    exact startsTool_of_exec h hpc htools hinv

/-! ## Whole runs -/

/-- No tool starts once the token is set, exactly if every tool's start event is taken by the
sink while the token is not set. -/
theorem no_tool_after_cancel_iff (ctx : RunCtx) (invokes : ToolCallSpec → Bool) (acts : List Act) :
    NoToolAfterCancel ctx invokes acts ↔
      Steps.AllSteps (step ctx) (StartsUncancelled ctx invokes) (start ctx) acts := by
  constructor
  · rintro ⟨hafter, hlost⟩
    refine Steps.allSteps_iff.2 fun early a late s t hacts hrun hstep => ?_
    intro ev call ok hpc ha htools hinv
    have hstarts : StartsTool invokes s t :=
      (startsTool_iff hstep).2 ⟨ev, call, ok, hpc, ha, htools, hinv⟩
    constructor
    · cases hcancel : s.cancelled with
      | false => rfl
      | true => exact absurd hstarts (hafter early (a :: late) s hacts hrun hcancel t hstep).1
    · cases ok with
      | true => rfl
      | false => exact absurd hstarts (Steps.allSteps_iff.1 hlost early a late s t hacts hrun hstep ha)
  · intro hgood
    have hok := Steps.allSteps_iff.1 hgood
    constructor
    · rintro early late s rfl hrun hcancel
      refine Steps.allSteps_iff.2 fun mid a rest t u hlate hmid hstep hstarts => ?_
      obtain ⟨ev, call, ok, hpc, ha, htools, hinv⟩ := (startsTool_iff hstep).1 hstarts
      -- The token has stayed set since `s`.
      have hset : t.cancelled = true :=
        Steps.exec_invariant (I := fun s => s.cancelled = true) (fun _ _ _ h ht => (step_mono ht).cancelled h)
          hcancel hmid
      have hclear := (hok (early ++ mid) a rest t u (by rw [hlate, List.append_assoc])
        (Steps.exec_append_eq_some.2 ⟨s, hrun, hmid⟩) hstep ev call ok hpc ha htools hinv).1
      rw [hset] at hclear
      simp at hclear
    · refine Steps.allSteps_iff.2 fun early a late s t hacts hrun hstep hlost hstarts => ?_
      obtain ⟨ev, call, ok, hpc, ha, htools, hinv⟩ := (startsTool_iff hstep).1 hstarts
      have htaken := (hok early a late s t hacts hrun hstep ev call ok hpc ha htools hinv).2
      rw [ha, htaken] at hlost
      simp at hlost

/-- A run with a tool executor whose client listens to the broadcast. -/
def toolCtx : RunCtx :=
  { sessionId := "main", runId := "r1", userText := "hi", history := [], compactCfg := .default
    tools := true, runTimeout := false, sink := .broadcast }

def abortedCall : ToolCallSpec := { id := "c1", name := "exec", args := "\x7b\x7d" }

/-- The run is aborted while the model's call is still being put together. -/
def abortedEarly : List Act :=
  [.sent true, .opened,
    .delta (.toolCall { callId := "c1", name := some "exec", argsChunk := "\x7b\x7d" }) "g", .abort]

/-- The rest of the turn is read on and the call is stored. -/
def abortedLate : List Act := [.delta (.done .toolUse) "g", .stored true]

/-- The aborted run announces the call and starts the tool. -/
theorem no_tool_after_cancel_fails :
    ¬ ∀ (ctx : RunCtx) (invokes : ToolCallSpec → Bool) (acts : List Act),
      NoToolAfterCancel ctx invokes acts := by
  intro h
  have hearly : (Steps.exec (step toolCtx) (start toolCtx) abortedEarly).map (·.cancelled) = some true := by
    decide
  have hlate : (Steps.exec (step toolCtx) (start toolCtx) (abortedEarly ++ abortedLate)).map (·.pc) =
      some (.sending (.tool "main" "r1" "c1" (.start "exec" "\x7b\x7d")) (.exec abortedCall)) := by
    decide
  have hlast : (Steps.exec (step toolCtx) (start toolCtx)
      (abortedEarly ++ abortedLate ++ [.sent true])).map (·.pc) = some (.toolRunning abortedCall) := by
    decide
  obtain ⟨u, hu, hpcu⟩ := Option.map_eq_some_iff.1 hlast
  obtain ⟨t, ht, hstep⟩ := Steps.exec_append_eq_some.1 hu
  obtain ⟨s, hs, hmid⟩ := Steps.exec_append_eq_some.1 ht
  obtain ⟨u', hu', hnil⟩ := Steps.exec_cons_eq_some.1 hstep
  obtain rfl : u' = u := by simpa using hnil
  rw [hs, Option.map_some, Option.some.injEq] at hearly
  rw [ht, Option.map_some, Option.some.injEq] at hlate
  have hafter := (h toolCtx (fun _ => true) (abortedEarly ++ (abortedLate ++ [.sent true]))).1
    abortedEarly _ s rfl hs hearly
  exact Steps.allSteps_iff.1 hafter abortedLate (.sent true) [] t u' rfl hmid hu'
    ⟨abortedCall, hpcu, by simp [hlate], rfl⟩

end Run

end OhMyClaw
