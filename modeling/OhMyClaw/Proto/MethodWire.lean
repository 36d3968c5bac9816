import OhMyClaw.Lib.Serde
import OhMyClaw.Proto.Frame

/-!
# Methods on the wire

The requests a client makes and what the server returns, with the fields, the names and the
attributes of the source.  Ids are written as their strings; `usize` has 64 bits.

    Method.members     the method beside its parameters
    MethodOk.members   the result beside its data
-/

namespace OhMyClaw.Proto

open Serde (Codec Record Members)

/-! ## Parameters -/

/-- Whether a run ends with the connection it was started on. -/
inductive ClientKind where
  | interactive | detached
deriving DecidableEq, Repr

def ClientKind.name : ClientKind → String
  | .interactive => "interactive"
  | .detached => "detached"

def ClientKind.codec : Codec ClientKind :=
  .names [.interactive, .detached] name (by intro a; cases a <;> decide)

structure ConnectParams where
  protoVersion : UInt16
  token : Option String
  clientKind : ClientKind
deriving DecidableEq, Repr

def ConnectParams.record : Record ConnectParams :=
  (Record.field (.required "proto_version" .u16) <|
    .field (.skipNone "token" .str) <|
    .last (.skipDefault "client_kind" ClientKind.codec .interactive)).map
    (fun p => (p.protoVersion, p.token, p.clientKind))
    (fun (protoVersion, token, clientKind) => ⟨protoVersion, token, clientKind⟩) fun _ => rfl

structure ChatSendParams where
  session : Option String
  text : String
deriving DecidableEq, Repr

def ChatSendParams.record : Record ChatSendParams :=
  (Record.field (.option "session" .str) <|
    .last (.required "text" .str)).map
    (fun p => (p.session, p.text))
    (fun (session, text) => ⟨session, text⟩) fun _ => rfl

/-- `sinceSeq` is the last entry the client has; what is in the history up to it is not replayed. -/
structure ChatResumeParams where
  session : String
  runId : String
  sinceSeq : Int64
deriving DecidableEq, Repr

def ChatResumeParams.record : Record ChatResumeParams :=
  (Record.field (.required "session" .str) <|
    .field (.required "run_id" .str) <|
    .last (.defaulted "since_seq" .i64 0)).map
    (fun p => (p.session, p.runId, p.sinceSeq))
    (fun (session, runId, sinceSeq) => ⟨session, runId, sinceSeq⟩) fun _ => rfl

structure SessionResetParams where
  session : Option String
deriving DecidableEq, Repr

def SessionResetParams.record : Record SessionResetParams :=
  (Record.last (.option "session" .str)).map (fun p => p.session) (fun session => ⟨session⟩) fun _ => rfl

structure CompactParams where
  session : Option String
deriving DecidableEq, Repr

def CompactParams.record : Record CompactParams :=
  (Record.last (.option "session" .str)).map (fun p => p.session) (fun session => ⟨session⟩) fun _ => rfl

structure ChatAbortParams where
  runId : String
  hard : Bool
deriving DecidableEq, Repr

def ChatAbortParams.record : Record ChatAbortParams :=
  (Record.field (.required "run_id" .str) <|
    .last (.defaulted "hard" .bool false)).map
    (fun p => (p.runId, p.hard))
    (fun (runId, hard) => ⟨runId, hard⟩) fun _ => rfl

structure CommandParams where
  session : Option String
  text : String
deriving DecidableEq, Repr

def CommandParams.record : Record CommandParams :=
  (Record.field (.option "session" .str) <|
    .last (.required "text" .str)).map
    (fun p => (p.session, p.text))
    (fun (session, text) => ⟨session, text⟩) fun _ => rfl

structure HistoryParams where
  session : Option String
  limit : Option UInt32
deriving DecidableEq, Repr

def HistoryParams.record : Record HistoryParams :=
  (Record.field (.option "session" .str) <|
    .last (.option "limit" .u32)).map
    (fun p => (p.session, p.limit))
    (fun (session, limit) => ⟨session, limit⟩) fun _ => rfl

structure CronAddParams where
  expr : String
  prompt : String
  tz : String
deriving DecidableEq, Repr

def CronAddParams.record : Record CronAddParams :=
  (Record.field (.required "expr" .str) <|
    .field (.required "prompt" .str) <|
    .last (.required "tz" .str)).map
    (fun p => (p.expr, p.prompt, p.tz))
    (fun (expr, prompt, tz) => ⟨expr, prompt, tz⟩) fun _ => rfl

structure CronRmParams where
  cronId : String
deriving DecidableEq, Repr

def CronRmParams.record : Record CronRmParams :=
  (Record.last (.required "cron_id" .str)).map (fun p => p.cronId) (fun cronId => ⟨cronId⟩) fun _ => rfl

structure IntentAddParams where
  text : String
  keywords : List String
  cooldownSecs : Option Int64
  budget : Option UInt32
  expiryDays : Option UInt32
deriving DecidableEq, Repr

def IntentAddParams.record : Record IntentAddParams :=
  (Record.field (.required "text" .str) <|
    .field (.required "keywords" (.list .str)) <|
    .field (.skipNone "cooldown_secs" .i64) <|
    .field (.skipNone "budget" .u32) <|
    .last (.skipNone "expiry_days" .u32)).map
    (fun p => (p.text, p.keywords, p.cooldownSecs, p.budget, p.expiryDays))
    (fun (text, keywords, cooldownSecs, budget, expiryDays) =>
      ⟨text, keywords, cooldownSecs, budget, expiryDays⟩) fun _ => rfl

structure IntentRmParams where
  intentId : String
deriving DecidableEq, Repr

def IntentRmParams.record : Record IntentRmParams :=
  (Record.last (.required "intent_id" .str)).map (fun p => p.intentId) (fun intentId => ⟨intentId⟩) fun _ => rfl

structure TaskCancelParams where
  taskId : String
deriving DecidableEq, Repr

def TaskCancelParams.record : Record TaskCancelParams :=
  (Record.last (.required "task_id" .str)).map (fun p => p.taskId) (fun taskId => ⟨taskId⟩) fun _ => rfl

structure MemSearchParams where
  query : String
  limit : Option UInt32
deriving DecidableEq, Repr

def MemSearchParams.record : Record MemSearchParams :=
  (Record.field (.required "query" .str) <|
    .last (.option "limit" .u32)).map
    (fun p => (p.query, p.limit))
    (fun (query, limit) => ⟨query, limit⟩) fun _ => rfl

structure ApprovalReplyParams where
  approvalId : String
  allow : Bool
deriving DecidableEq, Repr

def ApprovalReplyParams.record : Record ApprovalReplyParams :=
  (Record.field (.required "approval_id" .str) <|
    .last (.required "allow" .bool)).map
    (fun p => (p.approvalId, p.allow))
    (fun (approvalId, allow) => ⟨approvalId, allow⟩) fun _ => rfl

structure UserReplyParams where
  inputId : String
  text : Option String
deriving DecidableEq, Repr

def UserReplyParams.record : Record UserReplyParams :=
  (Record.field (.required "input_id" .str) <|
    .last (.skipNone "text" .str)).map
    (fun p => (p.inputId, p.text))
    (fun (inputId, text) => ⟨inputId, text⟩) fun _ => rfl

/-! ## Results -/

structure CommandResult where
  text : String
  switchSession : Option String
  clearView : Option String
deriving DecidableEq, Repr

def CommandResult.record : Record CommandResult :=
  (Record.field (.required "text" .str) <|
    .field (.skipNone "switch_session" .str) <|
    .last (.skipNone "clear_view" .str)).map
    (fun p => (p.text, p.switchSession, p.clearView))
    (fun (text, switchSession, clearView) => ⟨text, switchSession, clearView⟩) fun _ => rfl

structure Features where
  wsRemote : Bool
  memoryVec : Bool
  sandbox : Bool
  protoVersion : UInt16
deriving DecidableEq, Repr

def Features.record : Record Features :=
  (Record.field (.required "ws_remote" .bool) <|
    .field (.required "memory_vec" .bool) <|
    .field (.required "sandbox" .bool) <|
    .last (.required "proto_version" .u16)).map
    (fun p => (p.wsRemote, p.memoryVec, p.sandbox, p.protoVersion))
    (fun (wsRemote, memoryVec, sandbox, protoVersion) =>
      ⟨wsRemote, memoryVec, sandbox, protoVersion⟩) fun _ => rfl

structure Snapshot where
  activeRun : Option String
  queuedTurns : UInt32
  backgroundTasks : UInt32
  session : String
  contextWindow : UInt32
  lastInputTokens : Option UInt32
  model : String
  provider : String
  endpoint : Option String
deriving DecidableEq, Repr

def Snapshot.record : Record Snapshot :=
  (Record.field (.option "active_run" .str) <|
    .field (.required "queued_turns" .u32) <|
    .field (.required "background_tasks" .u32) <|
    .field (.required "session" .str) <|
    .field (.required "context_window" .u32) <|
    .field (.skipNone "last_input_tokens" .u32) <|
    .field (.defaulted "model" .str "") <|
    .field (.defaulted "provider" .str "") <|
    .last (.skipNone "endpoint" .str)).map
    (fun p => (p.activeRun, p.queuedTurns, p.backgroundTasks, p.session, p.contextWindow,
      p.lastInputTokens, p.model, p.provider, p.endpoint))
    (fun (activeRun, queuedTurns, backgroundTasks, session, contextWindow, lastInputTokens, model,
      provider, endpoint) =>
      ⟨activeRun, queuedTurns, backgroundTasks, session, contextWindow, lastInputTokens, model,
        provider, endpoint⟩)
    fun _ => rfl

structure HealthOk where
  ok : Bool
  dbVersion : UInt32
deriving DecidableEq, Repr

def HealthOk.record : Record HealthOk :=
  (Record.field (.required "ok" .bool) <|
    .last (.required "db_version" .u32)).map
    (fun p => (p.ok, p.dbVersion))
    (fun (ok, dbVersion) => ⟨ok, dbVersion⟩) fun _ => rfl

structure ToolCallSpec where
  id : String
  name : String
  args : String
deriving DecidableEq, Repr

def ToolCallSpec.record : Record ToolCallSpec :=
  (Record.field (.required "id" .str) <|
    .field (.required "name" .str) <|
    .last (.required "args" .str)).map
    (fun p => (p.id, p.name, p.args))
    (fun (id, name, args) => ⟨id, name, args⟩) fun _ => rfl

inductive Role where
  | user | assistant | tool | system
deriving DecidableEq, Repr

def Role.name : Role → String
  | .user => "user"
  | .assistant => "assistant"
  | .tool => "tool"
  | .system => "system"

def Role.codec : Codec Role :=
  .names [.user, .assistant, .tool, .system] name (by intro a; cases a <;> decide)

structure Entry where
  seq : Int64
  role : Role
  content : String
  toolCalls : Option (List ToolCallSpec)
  toolCallId : Option String
  createdAt : Int64
deriving DecidableEq, Repr

def Entry.record : Record Entry :=
  (Record.field (.required "seq" .i64) <|
    .field (.required "role" Role.codec) <|
    .field (.required "content" .str) <|
    .field (.skipNone "tool_calls" (.list ToolCallSpec.record.codec)) <|
    .field (.skipNone "tool_call_id" .str) <|
    .last (.required "created_at" .i64)).map
    (fun p => (p.seq, p.role, p.content, p.toolCalls, p.toolCallId, p.createdAt))
    (fun (seq, role, content, toolCalls, toolCallId, createdAt) =>
      ⟨seq, role, content, toolCalls, toolCallId, createdAt⟩) fun _ => rfl

structure SessionView where
  id : String
  kind : String
  createdAt : Int64
  resetAt : Int64
deriving DecidableEq, Repr

def SessionView.record : Record SessionView :=
  (Record.field (.required "id" .str) <|
    .field (.required "kind" .str) <|
    .field (.required "created_at" .i64) <|
    .last (.required "reset_at" .i64)).map
    (fun p => (p.id, p.kind, p.createdAt, p.resetAt))
    (fun (id, kind, createdAt, resetAt) => ⟨id, kind, createdAt, resetAt⟩) fun _ => rfl

structure CronSpec where
  id : String
  expr : String
  prompt : String
  tz : String
  enabled : Bool
  nextAt : Option Int64
deriving DecidableEq, Repr

def CronSpec.record : Record CronSpec :=
  (Record.field (.required "id" .str) <|
    .field (.required "expr" .str) <|
    .field (.required "prompt" .str) <|
    .field (.required "tz" .str) <|
    .field (.required "enabled" .bool) <|
    .last (.option "next_at" .i64)).map
    (fun p => (p.id, p.expr, p.prompt, p.tz, p.enabled, p.nextAt))
    (fun (id, expr, prompt, tz, enabled, nextAt) =>
      ⟨id, expr, prompt, tz, enabled, nextAt⟩) fun _ => rfl

structure IntentSpec where
  id : String
  text : String
  keywords : List String
  cooldownSecs : Int64
  budget : UInt32
  firedCount : UInt32
  lastFiredAt : Option Int64
  expiryAt : Option Int64
deriving DecidableEq, Repr

def IntentSpec.record : Record IntentSpec :=
  (Record.field (.required "id" .str) <|
    .field (.required "text" .str) <|
    .field (.required "keywords" (.list .str)) <|
    .field (.required "cooldown_secs" .i64) <|
    .field (.required "budget" .u32) <|
    .field (.required "fired_count" .u32) <|
    .field (.option "last_fired_at" .i64) <|
    .last (.option "expiry_at" .i64)).map
    (fun p => (p.id, p.text, p.keywords, p.cooldownSecs, p.budget, p.firedCount, p.lastFiredAt,
      p.expiryAt))
    (fun (id, text, keywords, cooldownSecs, budget, firedCount, lastFiredAt, expiryAt) =>
      ⟨id, text, keywords, cooldownSecs, budget, firedCount, lastFiredAt, expiryAt⟩) fun _ => rfl

def taskStateName : TaskState → String
  | .queued => "queued"
  | .running => "running"
  | .done => "done"
  | .failed => "failed"
  | .cancelled => "cancelled"

def taskState : Codec TaskState :=
  .names [.queued, .running, .done, .failed, .cancelled] taskStateName (by intro a; cases a <;> decide)

structure TaskView where
  id : String
  kind : String
  state : TaskState
  detail : Option String
deriving DecidableEq, Repr

def TaskView.record : Record TaskView :=
  (Record.field (.required "id" .str) <|
    .field (.required "kind" .str) <|
    .field (.required "state" taskState) <|
    .last (.option "detail" .str)).map
    (fun p => (p.id, p.kind, p.state, p.detail))
    (fun (id, kind, state, detail) => ⟨id, kind, state, detail⟩) fun _ => rfl

/-- A hit without its score. -/
structure MemHit where
  id : String
  tier : String
  text : String
  source : Option String
deriving DecidableEq, Repr

def MemHit.record : Record MemHit :=
  (Record.field (.required "id" .str) <|
    .field (.required "tier" .str) <|
    .field (.required "text" .str) <|
    .last (.option "source" .str)).map
    (fun p => (p.id, p.tier, p.text, p.source))
    (fun (id, tier, text, source) => ⟨id, tier, text, source⟩) fun _ => rfl

inductive RunPhase where
  | starting | awaitingModel | streaming | toolExec | compacting
deriving DecidableEq, Repr

def RunPhase.name : RunPhase → String
  | .starting => "starting"
  | .awaitingModel => "awaiting_model"
  | .streaming => "streaming"
  | .toolExec => "tool_exec"
  | .compacting => "compacting"

def RunPhase.codec : Codec RunPhase :=
  .names [.starting, .awaitingModel, .streaming, .toolExec, .compacting] name (by intro a; cases a <;> decide)

structure RunSnapshot where
  runId : String
  phase : RunPhase
  startedAt : Int64
  lastDeltaAt : Option Int64
  toolRounds : UInt64
  accChars : UInt64
deriving DecidableEq, Repr

def RunSnapshot.record : Record RunSnapshot :=
  (Record.field (.required "run_id" .str) <|
    .field (.required "phase" RunPhase.codec) <|
    .field (.required "started_at" .i64) <|
    .field (.skipNone "last_delta_at" .i64) <|
    .field (.required "tool_rounds" .u64) <|
    .last (.required "acc_chars" .u64)).map
    (fun p => (p.runId, p.phase, p.startedAt, p.lastDeltaAt, p.toolRounds, p.accChars))
    (fun (runId, phase, startedAt, lastDeltaAt, toolRounds, accChars) =>
      ⟨runId, phase, startedAt, lastDeltaAt, toolRounds, accChars⟩) fun _ => rfl

structure SessionDiag where
  sessionId : String
  queueDepth : UInt64
  active : Option RunSnapshot
  laneBusySince : Option Int64
  totalRuns : UInt64
  lastFinishReason : Option String
  lastError : Option String
deriving DecidableEq, Repr

def SessionDiag.record : Record SessionDiag :=
  (Record.field (.required "session_id" .str) <|
    .field (.required "queue_depth" .u64) <|
    .field (.skipNone "active" RunSnapshot.record.codec) <|
    .field (.skipNone "lane_busy_since" .i64) <|
    .field (.required "total_runs" .u64) <|
    .field (.skipNone "last_finish_reason" .str) <|
    .last (.skipNone "last_error" .str)).map
    (fun p => (p.sessionId, p.queueDepth, p.active, p.laneBusySince, p.totalRuns,
      p.lastFinishReason, p.lastError))
    (fun (sessionId, queueDepth, active, laneBusySince, totalRuns, lastFinishReason, lastError) =>
      ⟨sessionId, queueDepth, active, laneBusySince, totalRuns, lastFinishReason, lastError⟩)
    fun _ => rfl

structure DiagnosticsSnapshot where
  uptimeSecs : UInt64
  sessions : List SessionDiag
  storeWriterAlive : Bool
  eventSubscribers : UInt64
  idemEntries : UInt64
  sampledAt : Int64
  protoVersion : UInt16
deriving DecidableEq, Repr

def DiagnosticsSnapshot.record : Record DiagnosticsSnapshot :=
  (Record.field (.required "uptime_secs" .u64) <|
    .field (.required "sessions" (.list SessionDiag.record.codec)) <|
    .field (.required "store_writer_alive" .bool) <|
    .field (.required "event_subscribers" .u64) <|
    .field (.defaulted "idem_entries" .u64 0) <|
    .field (.required "sampled_at" .i64) <|
    .last (.required "proto_version" .u16)).map
    (fun p => (p.uptimeSecs, p.sessions, p.storeWriterAlive, p.eventSubscribers, p.idemEntries,
      p.sampledAt, p.protoVersion))
    (fun (uptimeSecs, sessions, storeWriterAlive, eventSubscribers, idemEntries, sampledAt,
      protoVersion) =>
      ⟨uptimeSecs, sessions, storeWriterAlive, eventSubscribers, idemEntries, sampledAt,
        protoVersion⟩)
    fun _ => rfl

/-! ## Methods -/

inductive Method where
  | connect (params : ConnectParams)
  | chatSend (params : ChatSendParams)
  | chatAbort (params : ChatAbortParams)
  | chatHistory (params : HistoryParams)
  | sessionReset (params : SessionResetParams)
  | compact (params : CompactParams)
  | sessionsList
  | cronAdd (params : CronAddParams)
  | cronList
  | cronRm (params : CronRmParams)
  | intentAdd (params : IntentAddParams)
  | intentList
  | intentRm (params : IntentRmParams)
  | tasksList
  | tasksCancel (params : TaskCancelParams)
  | memorySearch (params : MemSearchParams)
  | approvalReply (params : ApprovalReplyParams)
  | userReply (params : UserReplyParams)
  | status
  | health
  | diagnostics
  | command (params : CommandParams)
  | chatResume (params : ChatResumeParams)
deriving DecidableEq, Repr

/-- The name of the method and its parameters. -/
def Method.write : Method → String × Option Json
  | .connect params => ("connect", some (ConnectParams.record.codec.ser params))
  | .chatSend params => ("chat_send", some (ChatSendParams.record.codec.ser params))
  | .chatAbort params => ("chat_abort", some (ChatAbortParams.record.codec.ser params))
  | .chatHistory params => ("chat_history", some (HistoryParams.record.codec.ser params))
  | .sessionReset params => ("session_reset", some (SessionResetParams.record.codec.ser params))
  | .compact params => ("compact", some (CompactParams.record.codec.ser params))
  | .sessionsList => ("sessions_list", none)
  | .cronAdd params => ("cron_add", some (CronAddParams.record.codec.ser params))
  | .cronList => ("cron_list", none)
  | .cronRm params => ("cron_rm", some (CronRmParams.record.codec.ser params))
  | .intentAdd params => ("intent_add", some (IntentAddParams.record.codec.ser params))
  | .intentList => ("intent_list", none)
  | .intentRm params => ("intent_rm", some (IntentRmParams.record.codec.ser params))
  | .tasksList => ("tasks_list", none)
  | .tasksCancel params => ("tasks_cancel", some (TaskCancelParams.record.codec.ser params))
  | .memorySearch params => ("memory_search", some (MemSearchParams.record.codec.ser params))
  | .approvalReply params => ("approval_reply", some (ApprovalReplyParams.record.codec.ser params))
  | .userReply params => ("user_reply", some (UserReplyParams.record.codec.ser params))
  | .status => ("status", none)
  | .health => ("health", none)
  | .diagnostics => ("diagnostics", none)
  | .command params => ("command", some (CommandParams.record.codec.ser params))
  | .chatResume params => ("chat_resume", some (ChatResumeParams.record.codec.ser params))

def Method.read : String → Option Json → Option Method
  | "connect" => Serde.newtype ConnectParams.record.codec .connect
  | "chat_send" => Serde.newtype ChatSendParams.record.codec .chatSend
  | "chat_abort" => Serde.newtype ChatAbortParams.record.codec .chatAbort
  | "chat_history" => Serde.newtype HistoryParams.record.codec .chatHistory
  | "session_reset" => Serde.newtype SessionResetParams.record.codec .sessionReset
  | "compact" => Serde.newtype CompactParams.record.codec .compact
  | "sessions_list" => Serde.unit .sessionsList
  | "cron_add" => Serde.newtype CronAddParams.record.codec .cronAdd
  | "cron_list" => Serde.unit .cronList
  | "cron_rm" => Serde.newtype CronRmParams.record.codec .cronRm
  | "intent_add" => Serde.newtype IntentAddParams.record.codec .intentAdd
  | "intent_list" => Serde.unit .intentList
  | "intent_rm" => Serde.newtype IntentRmParams.record.codec .intentRm
  | "tasks_list" => Serde.unit .tasksList
  | "tasks_cancel" => Serde.newtype TaskCancelParams.record.codec .tasksCancel
  | "memory_search" => Serde.newtype MemSearchParams.record.codec .memorySearch
  | "approval_reply" => Serde.newtype ApprovalReplyParams.record.codec .approvalReply
  | "user_reply" => Serde.newtype UserReplyParams.record.codec .userReply
  | "status" => Serde.unit .status
  | "health" => Serde.unit .health
  | "diagnostics" => Serde.unit .diagnostics
  | "command" => Serde.newtype CommandParams.record.codec .command
  | "chat_resume" => Serde.newtype ChatResumeParams.record.codec .chatResume
  | _ => fun _ => none

theorem Method.read_write (m : Method) : read m.write.1 m.write.2 = some m := by
  cases m with
  | sessionsList | cronList | intentList | tasksList | status | health | diagnostics => rfl
  | connect params => exact Serde.newtype_ser ConnectParams.record.codec connect params
  | chatSend params => exact Serde.newtype_ser ChatSendParams.record.codec chatSend params
  | chatAbort params => exact Serde.newtype_ser ChatAbortParams.record.codec chatAbort params
  | chatHistory params => exact Serde.newtype_ser HistoryParams.record.codec chatHistory params
  | sessionReset params => exact Serde.newtype_ser SessionResetParams.record.codec sessionReset params
  | compact params => exact Serde.newtype_ser CompactParams.record.codec compact params
  | cronAdd params => exact Serde.newtype_ser CronAddParams.record.codec cronAdd params
  | cronRm params => exact Serde.newtype_ser CronRmParams.record.codec cronRm params
  | intentAdd params => exact Serde.newtype_ser IntentAddParams.record.codec intentAdd params
  | intentRm params => exact Serde.newtype_ser IntentRmParams.record.codec intentRm params
  | tasksCancel params => exact Serde.newtype_ser TaskCancelParams.record.codec tasksCancel params
  | memorySearch params => exact Serde.newtype_ser MemSearchParams.record.codec memorySearch params
  | approvalReply params => exact Serde.newtype_ser ApprovalReplyParams.record.codec approvalReply params
  | userReply params => exact Serde.newtype_ser UserReplyParams.record.codec userReply params
  | command params => exact Serde.newtype_ser CommandParams.record.codec command params
  | chatResume params => exact Serde.newtype_ser ChatResumeParams.record.codec chatResume params

def Method.members : Members Method := .adjacent "method" "params" write read (by decide) read_write

/-! ## What a method returns -/

inductive MethodOk where
  | hello (features : Features) (snapshot : Snapshot)
  | chatSend (runId : String)
  | empty
  | history (entries : List Entry)
  | cronAdd (cronId : String)
  | cronList (specs : List CronSpec)
  | intentAdd (intentId : String)
  | intentList (specs : List IntentSpec)
  | tasks (views : List TaskView)
  | memorySearch (hits : List MemHit)
  | sessions (views : List SessionView)
  | status (snapshot : Snapshot)
  | health (body : HealthOk)
  | diagnostics (snapshot : DiagnosticsSnapshot)
  | command (result : CommandResult)
  | chatResume (session : String)
deriving DecidableEq, Repr

/-- The fields of the variant `Hello`. -/
def hello : Record (Features × Snapshot) :=
  .field (.required "features" Features.record.codec) <| .last (.required "snapshot" Snapshot.record.codec)

/-- A variant whose only field is a string. -/
def only (key : String) : Codec String := (Record.last (.required key .str)).codec

/-- The name of the result and its data. -/
def MethodOk.write : MethodOk → String × Option Json
  | .hello features snapshot => ("hello", some (Proto.hello.codec.ser (features, snapshot)))
  | .chatSend runId => ("chat_send", some ((only "run_id").ser runId))
  | .empty => ("empty", none)
  | .history entries => ("history", some ((Codec.list Entry.record.codec).ser entries))
  | .cronAdd cronId => ("cron_add", some ((only "cron_id").ser cronId))
  | .cronList specs => ("cron_list", some ((Codec.list CronSpec.record.codec).ser specs))
  | .intentAdd intentId => ("intent_add", some ((only "intent_id").ser intentId))
  | .intentList specs => ("intent_list", some ((Codec.list IntentSpec.record.codec).ser specs))
  | .tasks views => ("tasks", some ((Codec.list TaskView.record.codec).ser views))
  | .memorySearch hits => ("memory_search", some ((Codec.list MemHit.record.codec).ser hits))
  | .sessions views => ("sessions", some ((Codec.list SessionView.record.codec).ser views))
  | .status snapshot => ("status", some (Snapshot.record.codec.ser snapshot))
  | .health body => ("health", some (HealthOk.record.codec.ser body))
  | .diagnostics snapshot => ("diagnostics", some (DiagnosticsSnapshot.record.codec.ser snapshot))
  | .command result => ("command", some (CommandResult.record.codec.ser result))
  | .chatResume session => ("chat_resume", some ((only "session").ser session))

def MethodOk.read : String → Option Json → Option MethodOk
  | "hello" => Serde.newtype Proto.hello.codec fun (features, snapshot) => .hello features snapshot
  | "chat_send" => Serde.newtype (only "run_id") .chatSend
  | "empty" => Serde.unit .empty
  | "history" => Serde.newtype (.list Entry.record.codec) .history
  | "cron_add" => Serde.newtype (only "cron_id") .cronAdd
  | "cron_list" => Serde.newtype (.list CronSpec.record.codec) .cronList
  | "intent_add" => Serde.newtype (only "intent_id") .intentAdd
  | "intent_list" => Serde.newtype (.list IntentSpec.record.codec) .intentList
  | "tasks" => Serde.newtype (.list TaskView.record.codec) .tasks
  | "memory_search" => Serde.newtype (.list MemHit.record.codec) .memorySearch
  | "sessions" => Serde.newtype (.list SessionView.record.codec) .sessions
  | "status" => Serde.newtype Snapshot.record.codec .status
  | "health" => Serde.newtype HealthOk.record.codec .health
  | "diagnostics" => Serde.newtype DiagnosticsSnapshot.record.codec .diagnostics
  | "command" => Serde.newtype CommandResult.record.codec .command
  | "chat_resume" => Serde.newtype (only "session") .chatResume
  | _ => fun _ => none

theorem MethodOk.read_write (ok : MethodOk) : read ok.write.1 ok.write.2 = some ok := by
  cases ok with
  | empty => rfl
  | hello features snapshot => exact Serde.newtype_ser Proto.hello.codec _ (features, snapshot)
  | chatSend runId => exact Serde.newtype_ser (only "run_id") chatSend runId
  | history entries => exact Serde.newtype_ser (.list Entry.record.codec) history entries
  | cronAdd cronId => exact Serde.newtype_ser (only "cron_id") cronAdd cronId
  | cronList specs => exact Serde.newtype_ser (.list CronSpec.record.codec) cronList specs
  | intentAdd intentId => exact Serde.newtype_ser (only "intent_id") intentAdd intentId
  | intentList specs => exact Serde.newtype_ser (.list IntentSpec.record.codec) intentList specs
  | tasks views => exact Serde.newtype_ser (.list TaskView.record.codec) tasks views
  | memorySearch hits => exact Serde.newtype_ser (.list MemHit.record.codec) memorySearch hits
  | sessions views => exact Serde.newtype_ser (.list SessionView.record.codec) sessions views
  | status snapshot => exact Serde.newtype_ser Snapshot.record.codec status snapshot
  | health body => exact Serde.newtype_ser HealthOk.record.codec health body
  | diagnostics snapshot => exact Serde.newtype_ser DiagnosticsSnapshot.record.codec diagnostics snapshot
  | command result => exact Serde.newtype_ser CommandResult.record.codec command result
  | chatResume session => exact Serde.newtype_ser (only "session") chatResume session

def MethodOk.members : Members MethodOk := .adjacent "ok" "data" write read (by decide) read_write

end OhMyClaw.Proto
