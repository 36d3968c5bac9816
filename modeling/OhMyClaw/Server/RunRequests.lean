import OhMyClaw.Llm.Request
import OhMyClaw.Server.RunMessages

/-!
# The requests of a run as the provider reads them

A run hands lists of messages to the provider; here they are followed through the body of the request, its
text and the provider's reading of it.

    requests_received    the provider parses each request and accepts its messages
-/

namespace OhMyClaw

open OpenAi (ModelRequest OpenAiProvider)

/-- A message that stands alone is sent as it is. -/
theorem IsPlain.sent {m : Message} (h : IsPlain m) : OpenAi.sent m = m := by
  obtain ⟨role, content, toolCallId, toolCalls, reasoning⟩ := m
  obtain rfl : toolCallId = none := h.toolCallId
  obtain rfl : toolCalls = [] := h.toolCalls
  obtain rfl : reasoning = none := h.reasoning
  simp [OpenAi.sent]

/-- So are a call, with its reasoning, and its answer. -/
theorem IsPair.sent {d r : Message} (h : IsPair d r) : OpenAi.sent d = d ∧ OpenAi.sent r = r := by
  constructor
  · have hcalls := h.calls_ne_nil
    have hid := h.dispatch_id
    have hrole := h.dispatch_role
    obtain ⟨role, content, toolCallId, toolCalls, reasoning⟩ := d
    simp only at hcalls hid hrole
    simp [OpenAi.sent, hrole, hid, hcalls]
  · have hcalls := h.result_calls
    have hreasoning := h.result_reasoning
    have hrole := h.result_role
    obtain ⟨role, content, toolCallId, toolCalls, reasoning⟩ := r
    simp only at hcalls hreasoning hrole
    simp [OpenAi.sent, hrole, hcalls, hreasoning]

/-- A sequence of blocks is sent as it is. -/
theorem Blocks.sent {ms : List Message} (h : Blocks ms) : ms.map OpenAi.sent = ms := by
  induction h with
  | nil => rfl
  | plain hm _ ih => rw [List.map_cons, hm.sent, ih]
  | pair hp _ ih => rw [List.map_cons, List.map_cons, hp.sent.1, hp.sent.2, ih]

theorem isPlain_system (c : String) : IsPlain (.plain .system c) :=
  ⟨by simp, rfl, by simp, rfl, rfl⟩

/-- The messages of a request as the provider has them. -/
def OpenAi.ModelRequest.asked (req : ModelRequest) : List Message :=
  (req.system.map (Message.plain .system)).toList ++ req.messages

theorem Blocks.asked {req : ModelRequest} (h : Blocks req.messages) : Blocks req.asked := by
  unfold ModelRequest.asked
  cases req.system with
  | none => exact h
  | some sys => exact .plain (isPlain_system sys) h

namespace Run

/-- Whatever window of a transcript a run starts from, and however it goes: the provider reads every request it
makes, with its model, its tools and its messages as they are, under one output limit at most, and finds the messages
in order. -/
theorem requests_received {db : Db} {cfg : SessionConfig} {loaded : Option (List Entry)} {ctx : RunCtx}
    {acts : List Act} {s : Drive} (hcalls : SingleCalls (db.log ctx.sessionId))
    (hload : loaded = none ∨ loaded = some (loadTranscript db ctx.sessionId cfg.maxHistoryEntries))
    (hhistory : ctx.history = loadHistory loaded cfg)
    (hrun : Steps.exec (step ctx) (start ctx) acts = some s) :
    ∀ (p : OpenAiProvider) (req : ModelRequest), req.messages ∈ s.requests →
      ∃ got, (Json.parse (Json.render (OpenAi.body p req))).bind OpenAi.readRequest = some got ∧
        got.model = req.model ∧ got.tools = req.tools ∧ got.messages = req.asked ∧ ProtocolValid got.messages ∧
        (got.maxCompletionTokens = none ∨ got.maxTokens = none) ∧
        got.maxCompletionTokens.or got.maxTokens = req.maxTokens.map (·.toNat) := by
  have hblocks : Blocks ctx.history := by
    rw [hhistory]
    apply loadHistory_blocks
    intro entries hentries
    rcases hload with h | h
    · simp [h] at hentries
    · rw [h, Option.some.injEq] at hentries
      rw [← hentries]
      exact hcalls.of_load _
  intro p req hreq
  have hmessages := (exec_messagesOk hblocks hrun).requests req.messages hreq
  have hwire : req.wire = req.asked := by rw [ModelRequest.wire, hmessages.sent, ModelRequest.asked]
  refine ⟨_, OpenAi.request_received p req, rfl, rfl, hwire, ?_, ?_, ?_⟩
  · rw [hwire]
    exact hmessages.asked.protocolValid
  · cases hlimit : OpenAi.limit p req with
    | none => exact .inl rfl
    | some l => rcases OpenAi.isLimitField_limit hlimit with h | h <;> simp [Option.filter, h]
  · cases hlimit : OpenAi.limit p req with
    | none =>
      have hnone : req.maxTokens = none := by simpa [OpenAi.limit] using hlimit
      simp [hnone]
    | some l =>
      obtain ⟨mt, hmt, rfl⟩ := Option.map_eq_some_iff.1 hlimit
      rcases OpenAi.isLimitField_limit hlimit with h | h <;> simp only at h <;> simp [Option.filter, h, hmt]

theorem requests_received_cut :
    ∃ s, Steps.exec (step cutCtx) (start cutCtx) cutActs = some s ∧ s.requests.length = 2 ∧
      ∀ req : ModelRequest, req.messages ∈ s.requests → ProtocolValid req.asked := by
  have hrun : (Steps.exec (step cutCtx) (start cutCtx) cutActs).map (·.requests.length) = some 2 := by
    decide +kernel
  obtain ⟨s, hs, hlen⟩ := Option.map_eq_some_iff.1 hrun
  refine ⟨s, hs, hlen, fun req hreq => ?_⟩
  have hcalls : SingleCalls (cutTranscript.log "main") :=
    List.forall_iff_forall_mem.1 (by decide +kernel)
  have hload : some (loadTranscript cutTranscript "main" 10) = none ∨
      some (loadTranscript cutTranscript "main" 10) =
        some (loadTranscript cutTranscript "main" cutCfg.maxHistoryEntries) := .inr rfl
  obtain ⟨got, -, -, -, hmessages, hvalid, -⟩ := requests_received hcalls hload rfl hs (.new none) req hreq
  exact hmessages ▸ hvalid

end Run

end OhMyClaw
