import OhMyClaw.Proto.EventJson
import OhMyClaw.Proto.MethodWire

/-!
# Events on the wire

All events of the source with all their fields.  Each is an object that names its kind in
`event`, and its phase or its source is an object within it that does the same.

    Event.members    the event with its tag
    json_short       for the events of a run, this is the JSON the HTTP gateway passes on
-/

namespace OhMyClaw.Proto

open Serde (Codec Record Members)

/-! ## Phases -/

def runErrorKindName : RunErrorKind → String
  | .aborted => "aborted"
  | .failed => "failed"
  | .panicked => "panicked"
  | .loopDetected => "loop_detected"
  | .timeout => "timeout"
  | .truncated => "truncated"

def runErrorKind : Codec RunErrorKind :=
  .names [.aborted, .failed, .panicked, .loopDetected, .timeout, .truncated] runErrorKindName
    (by intro a; cases a <;> decide)

/-- The fields of the variant `Error`. -/
def phaseError : Record (String × RunErrorKind) :=
  .field (.required "message" .str) <| .last (.required "kind" runErrorKind)

def lifecyclePhaseWrite : LifecyclePhase → String × List (String × Json)
  | .start => ("start", [])
  | .end => ("end", [])
  | .error message kind => ("error", phaseError.write (message, kind))

def lifecyclePhaseRead : String → List (String × Json) → Option LifecyclePhase
  | "start" => fun _ => some .start
  | "end" => fun _ => some .end
  | "error" => Serde.struct phaseError.toMembers fun (message, kind) => .error message kind
  | _ => fun _ => none

theorem lifecyclePhase_keys (phase : LifecyclePhase) :
    ∀ m ∈ (lifecyclePhaseWrite phase).2, m.1 ∈ phaseError.keys := by
  cases phase with
  | error message kind => exact phaseError.key_mem (message, kind)
  | _ => simp [lifecyclePhaseWrite]

theorem lifecyclePhase_read_write (phase : LifecyclePhase) :
    lifecyclePhaseRead (lifecyclePhaseWrite phase).1 (lifecyclePhaseWrite phase).2 = some phase := by
  cases phase with
  | error message kind => exact Serde.struct_write phaseError.toMembers _ (message, kind)
  | _ => rfl

def lifecyclePhase : Members LifecyclePhase :=
  .tagged "phase" phaseError.keys lifecyclePhaseWrite lifecyclePhaseRead lifecyclePhase_keys (by decide)
    lifecyclePhase_read_write

def toolStatusName : ToolStatus → String
  | .ok => "ok"
  | .error => "error"
  | .aborted => "aborted"
  | .backgrounded => "backgrounded"

def toolStatus : Codec ToolStatus :=
  .names [.ok, .error, .aborted, .backgrounded] toolStatusName (by intro a; cases a <;> decide)

theorem name_notMem_args : "name" ∉ ["args"] := by decide

/-- The fields of the variant `Start`. -/
def toolStart : Record (String × String) :=
  .field (.required "name" .str) (.last (.required "args" .str)) name_notMem_args

def toolUpdate : Record String := .last (.required "chunk" .str)

def toolEnd : Record ToolStatus := .last (.required "status" toolStatus)

def toolPhaseWrite : ToolPhase → String × List (String × Json)
  | .start name args => ("start", toolStart.write (name, args))
  | .update chunk => ("update", toolUpdate.write chunk)
  | .end status => ("end", toolEnd.write status)

def toolPhaseRead : String → List (String × Json) → Option ToolPhase
  | "start" => Serde.struct toolStart.toMembers fun (name, args) => .start name args
  | "update" => Serde.struct toolUpdate.toMembers .update
  | "end" => Serde.struct toolEnd.toMembers .end
  | _ => fun _ => none

def toolPhaseKeys : List String := ["name", "args", "chunk", "status"]

theorem toolPhase_keys (phase : ToolPhase) : ∀ m ∈ (toolPhaseWrite phase).2, m.1 ∈ toolPhaseKeys := by
  cases phase with
  | start name args => exact toolStart.keys_mem (by decide) (name, args)
  | update chunk => exact toolUpdate.keys_mem (by decide) chunk
  | «end» status => exact toolEnd.keys_mem (by decide) status

theorem toolPhase_read_write (phase : ToolPhase) :
    toolPhaseRead (toolPhaseWrite phase).1 (toolPhaseWrite phase).2 = some phase := by
  cases phase with
  | start name args => exact Serde.struct_write toolStart.toMembers _ (name, args)
  | update chunk => exact Serde.struct_write toolUpdate.toMembers _ chunk
  | «end» status => exact Serde.struct_write toolEnd.toMembers _ status

def toolPhase : Members ToolPhase :=
  .tagged "phase" toolPhaseKeys toolPhaseWrite toolPhaseRead toolPhase_keys (by decide) toolPhase_read_write

/-! ## Reminders and tasks -/

inductive ProactiveKind where
  | reminder | wake
deriving DecidableEq, Repr

def ProactiveKind.name : ProactiveKind → String
  | .reminder => "reminder"
  | .wake => "wake"

def ProactiveKind.codec : Codec ProactiveKind := .names [.reminder, .wake] name (by intro a; cases a <;> decide)

inductive ProactiveSource where
  | cron (cronId : String)
  | intent (intentId : String)
  | heartbeat
deriving DecidableEq, Repr

namespace ProactiveSource

def cronFields : Record String := .last (.required "cron_id" .str)

def intentFields : Record String := .last (.required "intent_id" .str)

def keys : List String := ["cron_id", "intent_id"]

def write : ProactiveSource → String × List (String × Json)
  | .cron cronId => ("cron", cronFields.write cronId)
  | .intent intentId => ("intent", intentFields.write intentId)
  | .heartbeat => ("heartbeat", [])

def read : String → List (String × Json) → Option ProactiveSource
  | "cron" => Serde.struct cronFields.toMembers .cron
  | "intent" => Serde.struct intentFields.toMembers .intent
  | "heartbeat" => fun _ => some .heartbeat
  | _ => fun _ => none

theorem key_mem (source : ProactiveSource) : ∀ m ∈ source.write.2, m.1 ∈ keys := by
  cases source with
  | cron cronId => exact cronFields.keys_mem (by decide) cronId
  | intent intentId => exact intentFields.keys_mem (by decide) intentId
  | heartbeat => simp [write]

theorem read_write (source : ProactiveSource) : read source.write.1 source.write.2 = some source := by
  cases source with
  | cron cronId => exact Serde.struct_write cronFields.toMembers _ cronId
  | intent intentId => exact Serde.struct_write intentFields.toMembers _ intentId
  | heartbeat => rfl

def members : Members ProactiveSource := .tagged "source" keys write read key_mem (by decide) read_write

end ProactiveSource

def taskUpdate : Record TaskUpdate :=
  (Record.field (.required "state" taskState) <|
    .last (.skipNone "detail" .str)).map
    (fun u => (u.state, u.detail)) (fun (state, detail) => ⟨state, detail⟩) fun _ => rfl

/-! ## Events -/

inductive Event where
  | lifecycle (session runId : String) (phase : LifecyclePhase)
  | assistant (session runId delta : String)
  | reasoning (session runId delta : String)
  | tool (session runId callId : String) (phase : ToolPhase)
  | proactive (session : String) (kind : ProactiveKind) (text : String) (source : ProactiveSource)
  | task (session taskId : String) (update : TaskUpdate)
  | usage (session : String) (inputTokens contextWindow : UInt32)
  | approval (session approvalId runId summary command : String)
  | userInput (session inputId runId prompt : String)
deriving DecidableEq, Repr

namespace Event

def lifecycleFields : Record (String × String × LifecyclePhase) :=
  .field (.required "session" .str) <| .field (.required "run_id" .str) <|
    .last (.required "phase" lifecyclePhase.codec)

/-- The fields of `Assistant` and of `Reasoning`. -/
def deltaFields : Record (String × String × String) :=
  .field (.required "session" .str) <| .field (.required "run_id" .str) <| .last (.required "delta" .str)

def toolFields : Record (String × String × String × ToolPhase) :=
  .field (.required "session" .str) <| .field (.required "run_id" .str) <|
    .field (.required "call_id" .str) <| .last (.required "phase" toolPhase.codec)

/-- The kind is renamed: `kind` is the tag of the frame around the event. -/
def proactiveFields : Record (String × ProactiveKind × String × ProactiveSource) :=
  .field (.required "session" .str) <| .field (.required "ptype" ProactiveKind.codec) <|
    .field (.required "text" .str) <| .last (.required "source" ProactiveSource.members.codec)

def taskFields : Record (String × String × TaskUpdate) :=
  .field (.required "session" .str) <| .field (.required "task_id" .str) <|
    .last (.required "update" taskUpdate.codec)

def usageFields : Record (String × UInt32 × UInt32) :=
  .field (.required "session" .str) <| .field (.required "input_tokens" .u32) <|
    .last (.required "context_window" .u32)

def approvalFields : Record (String × String × String × String × String) :=
  .field (.required "session" .str) <| .field (.required "approval_id" .str) <|
    .field (.required "run_id" .str) <| .field (.required "summary" .str) <| .last (.required "command" .str)

def userInputFields : Record (String × String × String × String) :=
  .field (.required "session" .str) <| .field (.required "input_id" .str) <|
    .field (.required "run_id" .str) <| .last (.required "prompt" .str)

/-- The name of the event and its fields. -/
def write : Event → String × List (String × Json)
  | .lifecycle session runId phase => ("lifecycle", lifecycleFields.write (session, runId, phase))
  | .assistant session runId delta => ("assistant", deltaFields.write (session, runId, delta))
  | .reasoning session runId delta => ("reasoning", deltaFields.write (session, runId, delta))
  | .tool session runId callId phase => ("tool", toolFields.write (session, runId, callId, phase))
  | .proactive session kind text source => ("proactive", proactiveFields.write (session, kind, text, source))
  | .task session taskId update => ("task", taskFields.write (session, taskId, update))
  | .usage session inputTokens contextWindow =>
    ("usage", usageFields.write (session, inputTokens, contextWindow))
  | .approval session approvalId runId summary command =>
    ("approval", approvalFields.write (session, approvalId, runId, summary, command))
  | .userInput session inputId runId prompt =>
    ("user_input", userInputFields.write (session, inputId, runId, prompt))

def read : String → List (String × Json) → Option Event
  | "lifecycle" => Serde.struct lifecycleFields.toMembers fun (s, r, phase) => .lifecycle s r phase
  | "assistant" => Serde.struct deltaFields.toMembers fun (s, r, delta) => .assistant s r delta
  | "reasoning" => Serde.struct deltaFields.toMembers fun (s, r, delta) => .reasoning s r delta
  | "tool" => Serde.struct toolFields.toMembers fun (s, r, c, phase) => .tool s r c phase
  | "proactive" =>
    Serde.struct proactiveFields.toMembers fun (s, kind, text, source) => .proactive s kind text source
  | "task" => Serde.struct taskFields.toMembers fun (s, t, update) => .task s t update
  | "usage" => Serde.struct usageFields.toMembers fun (s, i, w) => .usage s i w
  | "approval" =>
    Serde.struct approvalFields.toMembers fun (s, a, r, summary, command) => .approval s a r summary command
  | "user_input" => Serde.struct userInputFields.toMembers fun (s, i, r, prompt) => .userInput s i r prompt
  | _ => fun _ => none

/-- The keys of all events. -/
def keys : List String :=
  lifecycleFields.keys ++ deltaFields.keys ++ toolFields.keys ++ proactiveFields.keys ++ taskFields.keys ++
    usageFields.keys ++ approvalFields.keys ++ userInputFields.keys

theorem key_mem (e : Event) : ∀ m ∈ e.write.2, m.1 ∈ keys := by
  cases e with
  | lifecycle session runId phase => exact lifecycleFields.keys_mem (by decide) (session, runId, phase)
  | assistant session runId delta => exact deltaFields.keys_mem (by decide) (session, runId, delta)
  | reasoning session runId delta => exact deltaFields.keys_mem (by decide) (session, runId, delta)
  | tool session runId callId phase => exact toolFields.keys_mem (by decide) (session, runId, callId, phase)
  | proactive session kind text source =>
    exact proactiveFields.keys_mem (by decide) (session, kind, text, source)
  | task session taskId update => exact taskFields.keys_mem (by decide) (session, taskId, update)
  | usage session inputTokens contextWindow =>
    exact usageFields.keys_mem (by decide) (session, inputTokens, contextWindow)
  | approval session approvalId runId summary command =>
    exact approvalFields.keys_mem (by decide) (session, approvalId, runId, summary, command)
  | userInput session inputId runId prompt =>
    exact userInputFields.keys_mem (by decide) (session, inputId, runId, prompt)

theorem read_write (e : Event) : read e.write.1 e.write.2 = some e := by
  cases e with
  | lifecycle session runId phase =>
    exact Serde.struct_write lifecycleFields.toMembers _ (session, runId, phase)
  | assistant session runId delta => exact Serde.struct_write deltaFields.toMembers _ (session, runId, delta)
  | reasoning session runId delta => exact Serde.struct_write deltaFields.toMembers _ (session, runId, delta)
  | tool session runId callId phase =>
    exact Serde.struct_write toolFields.toMembers _ (session, runId, callId, phase)
  | proactive session kind text source =>
    exact Serde.struct_write proactiveFields.toMembers _ (session, kind, text, source)
  | task session taskId update => exact Serde.struct_write taskFields.toMembers _ (session, taskId, update)
  | usage session inputTokens contextWindow =>
    exact Serde.struct_write usageFields.toMembers _ (session, inputTokens, contextWindow)
  | approval session approvalId runId summary command =>
    exact Serde.struct_write approvalFields.toMembers _ (session, approvalId, runId, summary, command)
  | userInput session inputId runId prompt =>
    exact Serde.struct_write userInputFields.toMembers _ (session, inputId, runId, prompt)

def members : Members Event := .tagged "event" keys write read key_mem (by decide) read_write

/-! ## The events of a run -/

/-- The event with what a run's client makes of it: of what does not belong to a run, the session. -/
def short : Event → WireEvent
  | .lifecycle session runId phase => .inline (.lifecycle session runId phase)
  | .assistant session runId delta => .inline (.assistant session runId delta)
  | .reasoning session runId delta => .inline (.reasoning session runId delta)
  | .tool session runId callId phase => .inline (.tool session runId callId phase)
  | .proactive session _ _ _ => .proactive session
  | .task session _ _ => .task session
  | .usage session inputTokens contextWindow => .usage session inputTokens.toNat contextWindow.toNat
  | .approval session approvalId runId summary command =>
    .inline (.approval session approvalId runId summary command)
  | .userInput session inputId runId prompt => .inline (.userInput session inputId runId prompt)

theorem ser_lifecyclePhase (phase : LifecyclePhase) : lifecyclePhase.codec.ser phase = phase.json := by
  cases phase with
  | error message kind => cases kind <;> rfl
  | _ => rfl

theorem ser_toolPhase (phase : ToolPhase) : toolPhase.codec.ser phase = phase.json := by
  cases phase with
  | «end» status => cases status <;> rfl
  | _ => rfl

/-- Where an event of a run has a JSON of its own, it is the one on the wire. -/
theorem json_short {e : Event} {j : Json} (h : e.short.json = some j) : members.codec.ser e = j := by
  cases e with
  | lifecycle session runId phase =>
    obtain rfl := Option.some.inj h
    show Json.obj [_, _, _, ("phase", lifecyclePhase.codec.ser phase)] = _
    rw [ser_lifecyclePhase]
    rfl
  | tool session runId callId phase =>
    obtain rfl := Option.some.inj h
    show Json.obj [_, _, _, _, ("phase", toolPhase.codec.ser phase)] = _
    rw [ser_toolPhase]
    rfl
  | proactive | task => cases h
  | _ => exact Option.some.inj h

end Event

end OhMyClaw.Proto
