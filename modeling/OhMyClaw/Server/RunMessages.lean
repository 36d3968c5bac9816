import OhMyClaw.Server.Run

/-!
# Every request of a run is valid

Between two turns the message list of a run is a sequence of blocks (`Blocks`).  While a tool
call is under way it is such a sequence with the call at its end, and only the call's result
can come next.  `MessagesAt` says which of the two holds at which program counter; each leg of
the driver keeps it, compaction keeps blocks whole, so every list handed to the provider is one
the provider accepts.

    applyCompaction_blocks    compaction drops pairs whole and prunes within a message
    step_messagesOk           one leg of the driver
    exec_messagesOk           a whole run
-/

namespace OhMyClaw

namespace Run

/-! ## Compaction keeps blocks whole -/

theorem messageMetas_getElem? (scale : ℚ) (ms : List Message) (k i : Nat) :
    (messageMetas scale ms k)[i]? = ms[i]?.map fun m => messageMeta scale m (k + i) := by
  induction ms generalizing k i with
  | nil => simp [messageMetas]
  | cons m ms ih =>
    cases i with
    | zero => simp [messageMetas]
    | succ i => simp [messageMetas, ih, Nat.add_assoc, Nat.add_comm 1 i]

theorem messageMetas_wellFormed (scale : ℚ) (ms : List Message) :
    Compaction.WellFormed (messageMetas scale ms 0) := by
  constructor
  · intro i m hm
    rw [messageMetas_getElem?, Nat.zero_add, Option.map_eq_some_iff] at hm
    obtain ⟨_, _, rfl⟩ := hm
    rfl
  · intro m hm hd
    obtain ⟨i, hi⟩ := List.mem_iff_getElem?.1 hm
    rw [messageMetas_getElem?, Nat.zero_add, Option.map_eq_some_iff] at hi
    obtain ⟨x, _, rfl⟩ := hi
    simp only [messageMeta, decide_eq_true_eq] at hd
    simp [messageMeta, hd.1]

theorem pairAt_messageMetas {scale : ℚ} {ms : List Message} {i : Nat} {d r : Message}
    (hd : ms[i]? = some d) (hr : ms[i + 1]? = some r) (hp : IsPair d r) :
    Compaction.PairAt (messageMetas scale ms 0) i := by
  refine ⟨messageMeta scale d i, messageMeta scale r (i + 1), ?_, ?_, ?_, ?_⟩
  · simp [messageMetas_getElem?, hd]
  · simp [messageMetas_getElem?, hr]
  · simp [messageMeta, hp.dispatch_role, hp.calls_ne_nil]
  · simp [messageMeta, hp.result_role]

theorem pruneMessage_keepsShape (plan : CompactPlan) (i : Nat) : KeepsShape (pruneMessage plan i) := by
  constructor
  · intro m
    simp only [pruneMessage]
    split <;> rfl
  · intro m
    simp only [pruneMessage]
    split <;> rfl
  · intro m
    simp only [pruneMessage]
    split <;> rfl
  · intro m hm
    simp only [pruneMessage]
    split
    · intro h
      have := congrArg String.length h
      simp [String.length_append] at this
    · exact hm
  · intro m
    simp only [pruneMessage]
    split <;> rfl

theorem applyCompaction_blocks {ms : List Message} (h : Blocks ms) (cfg : CompactCfg)
    (realInputTokens : Option Int) : Blocks (applyCompaction ms cfg realInputTokens) := by
  simp only [applyCompaction]
  split
  · exact h
  · refine Blocks.keepEdited (pruneMessage_keepsShape _) h 0 ?_
    intro i d r hd hr hp
    rw [Nat.zero_add]
    exact planCompaction_pairClosed (messageMetas_wellFormed _ ms) cfg i (pairAt_messageMetas hd hr hp)

/-! ## Where a run stands -/

/-- Between turns, with a call under way, or past the last request. -/
inductive Stage where
  | fresh
  | pending (call : ToolCallSpec)
  | over

def AfterSend.stage : AfterSend → Stage
  | .started => .fresh
  | .turn _ => .fresh
  | .completed => .over
  | .returns _ => .over
  | .watchdog => .over
  | .exec call => .pending call
  | .executed call _ => .pending call

def AfterPersist.stage : AfterPersist → Stage
  | .finish => .over
  | .loopCheck call => .pending call
  | .feedBack call _ => .pending call

def Pc.stage : Pc → Stage
  | .sending _ k => k.stage
  | .opening => .fresh
  | .streaming _ => .fresh
  | .persisting _ k => k.stage
  | .toolRunning call => .pending call
  | .done _ => .over

/-- What the message list of a run looks like at a stage. -/
def StageMessages (messages : List Message) : Stage → Prop
  | .fresh => Blocks messages
  | .pending call => ∃ ms d, messages = ms ++ [d] ∧ Blocks ms ∧ d.role = .assistant ∧ d.toolCalls = [call] ∧
      d.toolCallId = none
  | .over => True

/-- The message list fits the stage and every request so far was a sequence of blocks. -/
structure MessagesAt (stage : Stage) (messages : List Message) (requests : List (List Message)) : Prop where
  messages : StageMessages messages stage
  requests : ∀ req ∈ requests, Blocks req

/-- The invariant of a run. -/
def MessagesOk (s : Drive) : Prop := MessagesAt s.pc.stage s.messages s.requests

theorem MessagesAt.over {stage : Stage} {messages : List Message} {requests : List (List Message)}
    (h : MessagesAt stage messages requests) (messages' : List Message) :
    MessagesAt .over messages' requests :=
  ⟨trivial, h.requests⟩

/-! ## The legs of the driver -/

theorem emitInline_messagesOk {ctx : RunCtx} {ev : Event} {k : AfterSend} {s : Drive}
    (h : MessagesAt k.stage s.messages s.requests) : MessagesOk (emitInline ctx ev k s) := by
  unfold emitInline
  split <;> exact h

theorem beginTurn_messagesOk {ctx : RunCtx} {s : Drive}
    (h : MessagesAt .fresh s.messages s.requests) : MessagesOk (beginTurn ctx s) := by
  refine ⟨h.messages, ?_⟩
  intro req hreq
  rcases List.mem_append.1 hreq with hreq | hreq
  · exact h.requests req hreq
  · rw [List.mem_singleton.1 hreq]
    exact applyCompaction_blocks h.messages _ _

theorem feedBack_messagesOk {ctx : RunCtx} {call : ToolCallSpec} {output : String} {s : Drive}
    (h : MessagesAt (.pending call) s.messages s.requests) :
    MessagesOk (feedBack ctx call output s) := by
  obtain ⟨ms, d, hms, hblocks, hrole, hcalls, hid⟩ := h.messages
  refine beginTurn_messagesOk ⟨?_, h.requests⟩
  simp only [StageMessages, hms, List.append_assoc, List.singleton_append]
  exact hblocks.snoc_pair ⟨hrole, ⟨call, hcalls, rfl⟩, rfl, rfl, hid, rfl⟩

theorem loopCheck_messagesOk {ctx : RunCtx} {call : ToolCallSpec} {s : Drive}
    (h : MessagesAt (.pending call) s.messages s.requests) : MessagesOk (loopCheck ctx call s) := by
  simp only [loopCheck, emitError]
  split
  · exact emitInline_messagesOk (h.over _)
  · split
    · exact emitInline_messagesOk (h.over _)
    · exact emitInline_messagesOk h

theorem afterPersist_messagesOk {ctx : RunCtx} {k : AfterPersist} {s : Drive}
    (h : MessagesAt k.stage s.messages s.requests) : MessagesOk (afterPersist ctx k s) := by
  cases k with
  | finish => exact h.over _
  | loopCheck call => exact loopCheck_messagesOk h
  | feedBack call output => exact feedBack_messagesOk h

theorem persist_messagesOk {ctx : RunCtx} {e : NewEntry} {k : AfterPersist} {s : Drive}
    (h : MessagesAt k.stage s.messages s.requests) : MessagesOk (persist ctx e k s) := by
  unfold persist
  split
  · exact afterPersist_messagesOk h
  · exact h

theorem afterSend_messagesOk {ctx : RunCtx} {k : AfterSend} {ok : Bool} {s : Drive}
    (h : MessagesAt k.stage s.messages s.requests) : MessagesOk (afterSend ctx k ok s) := by
  cases k with
  | started =>
    simp only [afterSend]
    split
    · exact beginTurn_messagesOk h
    · exact h.over _
  | turn tc => exact h
  | completed => exact persist_messagesOk h
  | returns o => exact h
  | watchdog => exact emitInline_messagesOk h
  | exec call =>
    simp only [afterSend]
    split
    · exact h
    · exact persist_messagesOk h
  | executed call output => exact persist_messagesOk h

theorem advance_messagesOk {ctx : RunCtx} {ev : StepEvent} {k : AfterSend} {s : Drive}
    (h : MessagesAt k.stage s.messages s.requests) : MessagesOk (advance ctx ev k s) := by
  simp only [advance, executeEffects]
  split
  · exact emitInline_messagesOk h
  · exact afterSend_messagesOk h

theorem toolCallTurn_messagesOk {ctx : RunCtx} {tc : PartialCall} {genCallId : String} {s : Drive}
    (h : MessagesAt .fresh s.messages s.requests) :
    MessagesOk (toolCallTurn ctx tc genCallId s) :=
  persist_messagesOk ⟨⟨s.messages, _, rfl, h.messages, rfl, rfl, rfl⟩, h.requests⟩

theorem truncatedTurn_messagesOk {ctx : RunCtx} {tc : PartialCall} {s : Drive}
    (h : MessagesAt .fresh s.messages s.requests) : MessagesOk (truncatedTurn ctx tc s) := by
  simp only [truncatedTurn, emitError]
  split
  · exact emitInline_messagesOk (h.over _)
  · refine beginTurn_messagesOk ⟨?_, ?_⟩
    · split
      · exact Blocks.snoc h.messages (isPlain_user _)
      · next hacc => exact (Blocks.snoc h.messages (isPlain_assistant hacc)).snoc (isPlain_user _)
    · split <;> exact h.requests

theorem onDelta_messagesOk {ctx : RunCtx} {tc : PartialCall} {d : Delta} {genCallId : String}
    {s : Drive} (hpc : s.pc = .streaming tc) (h : MessagesAt .fresh s.messages s.requests) :
    MessagesOk (onDelta ctx tc d genCallId s) := by
  cases d with
  | text t => exact advance_messagesOk h
  | reasoning r => exact emitInline_messagesOk h
  | toolCall d => exact h
  | usage u =>
    have hs : MessagesOk s := by
      rw [MessagesOk, hpc]
      exact h
    simp only [onDelta]
    split <;> exact hs
  | done reason =>
    cases reason with
    | stop => exact advance_messagesOk (h.over _)
    | toolUse => exact toolCallTurn_messagesOk h
    | length => exact truncatedTurn_messagesOk h

/-- One leg of the driver keeps the invariant. -/
theorem step_messagesOk {ctx : RunCtx} {s t : Drive} {a : Act} (h : MessagesOk s)
    (hstep : step ctx s a = some t) : MessagesOk t := by
  have hleg := leg_of_step hstep
  cases hleg with
  | sent hpc _ =>
    rw [MessagesOk, hpc] at h
    simp only [onSent]
    split <;> exact afterSend_messagesOk h
  | opened hpc =>
    rw [MessagesOk, hpc] at h
    exact h
  | openFailed hpc =>
    rw [MessagesOk, hpc] at h
    exact advance_messagesOk (h.over _)
  | closed hpc _ => exact advance_messagesOk (h.over _)
  | delta hpc =>
    rw [MessagesOk, hpc] at h
    exact onDelta_messagesOk hpc h
  | streamErr hpc => exact advance_messagesOk (h.over _)
  | streamEnd hpc => exact advance_messagesOk (h.over _)
  | cancelled hpc _ => exact advance_messagesOk (h.over _)
  | idle hpc => exact advance_messagesOk (h.over _)
  | stored hpc =>
    rw [MessagesOk, hpc] at h
    split <;> exact afterPersist_messagesOk h
  | toolDone hpc =>
    rw [MessagesOk, hpc] at h
    exact emitInline_messagesOk h
  | side _ _ => exact h
  | abort => exact h
  | runTimeout _ _ _ => exact emitInline_messagesOk (h.over _)
  | panic _ => exact h.over _

/-! ## Whole runs -/

theorem start_messagesOk {ctx : RunCtx} (h : Blocks ctx.history) : MessagesOk (start ctx) := by
  refine advance_messagesOk ⟨?_, by simp⟩
  simp only
  split
  · exact .plain (isPlain_user _) .nil
  · exact h

theorem exec_messagesOk {ctx : RunCtx} (h : Blocks ctx.history) {acts : List Act} {s : Drive}
    (hrun : Steps.exec (step ctx) (start ctx) acts = some s) : MessagesOk s :=
  Steps.exec_invariant (fun _ _ _ hs hstep => step_messagesOk hs hstep) (start_messagesOk h) hrun

/-- Whatever window of a transcript a run starts from, and however the run goes, every list of
messages it hands to the provider is one the provider accepts. -/
theorem requests_protocolValid {db : Db} {cfg : SessionConfig} {loaded : Option (List Entry)}
    {ctx : RunCtx} {acts : List Act} {s : Drive} (hcalls : SingleCalls (db.log ctx.sessionId))
    (hload : loaded = none ∨ loaded = some (loadTranscript db ctx.sessionId cfg.maxHistoryEntries))
    (hhistory : ctx.history = loadHistory loaded cfg)
    (hrun : Steps.exec (step ctx) (start ctx) acts = some s) :
    ∀ req ∈ s.requests, ProtocolValid req := by
  have hblocks : Blocks ctx.history := by
    rw [hhistory]
    apply loadHistory_blocks
    intro entries hentries
    rcases hload with h | h
    · simp [h] at hentries
    · rw [h, Option.some.injEq] at hentries
      rw [← hentries]
      exact hcalls.of_load _
  intro req hreq
  exact ((exec_messagesOk hblocks hrun).requests req hreq).protocolValid

/-- A transcript that ends in a call whose result was never stored. -/
def cutTranscript : Db :=
  { sessions := [{ id := "main", resetAt := 0 }]
    entries :=
      [(NewEntry.text "main" .user "几点了" 1).toEntry 1,
        NewEntry.toEntry
          { sessionId := "main", role := .assistant, content := "看一下", tokensEst := 1
            toolCalls := some [{ id := "c1", name := "sys", args := "\x7b\x7d" }], toolCallId := none } 2] }

def cutCfg : SessionConfig := { maxHistoryEntries := 10, historyTokenBudget := 100 }

/-- A run over `cutTranscript` with one tool round. -/
def cutCtx : RunCtx :=
  { sessionId := "main", runId := "r1", userText := "几点了"
    history := loadHistory (some (loadTranscript cutTranscript "main" 10)) cutCfg
    compactCfg := .default, tools := true, runTimeout := false, sink := .conn }

def cutActs : List Act :=
  [.sent true, .opened, .delta (.toolCall { callId := "c2", name := some "sys", argsChunk := "" }) "g",
    .delta (.done .toolUse) "g", .stored true, .sent true, .toolDone .ok "12:00", .sent true, .stored true]

theorem requests_protocolValid_cut :
    ∃ s, Steps.exec (step cutCtx) (start cutCtx) cutActs = some s ∧ s.requests.length = 2 ∧
      ∀ req ∈ s.requests, ProtocolValid req := by
  have hrun : (Steps.exec (step cutCtx) (start cutCtx) cutActs).map (·.requests.length) = some 2 := by
    decide
  obtain ⟨s, hs, hlen⟩ := Option.map_eq_some_iff.1 hrun
  refine ⟨s, hs, hlen, ?_⟩
  have hcalls : SingleCalls (cutTranscript.log "main") := by
    unfold SingleCalls
    decide
  have hload : some (loadTranscript cutTranscript "main" 10) = none ∨
      some (loadTranscript cutTranscript "main" 10) =
        some (loadTranscript cutTranscript "main" cutCfg.maxHistoryEntries) := .inr rfl
  exact requests_protocolValid hcalls hload rfl hs

end Run

end OhMyClaw
