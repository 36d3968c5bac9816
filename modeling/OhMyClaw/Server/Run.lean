import Mathlib.Algebra.Order.Floor.Ring
import Mathlib.Data.Rat.Floor
import OhMyClaw.Core.Agent
import OhMyClaw.Core.Compaction
import OhMyClaw.Core.Tool
import OhMyClaw.Lib.Steps
import OhMyClaw.Proto.Event
import OhMyClaw.Server.History

/-!
# The run driver

`drive` feeds a provider's stream through the agent state machine, sends the events of the
run to its sink, executes tool calls and feeds their results back.  Every await of the
driver is a program counter (`Pc`); what the awaited thing answers, and everything that can
cut the wait short, is an action (`Act`).  `step` is then one leg of the driver from an
await to the next, and a run is a list of actions.

The provider, the tools, the store, the client and the clock are free: any action that the
program counter waits for may happen next, and an abort, the run timeout and the events of
a tool's side tasks may happen at any moment.
-/

namespace OhMyClaw

/-- The three kinds of sink a run may have. -/
inductive SinkKind where
  | conn | broadcast | detached
deriving DecidableEq, Repr

/-- What a run is given.  `tools` and `runTimeout` say whether there is a tool executor and a
run timeout. -/
structure RunCtx where
  sessionId : String
  runId : String
  userText : String
  history : List Message
  compactCfg : CompactCfg
  tools : Bool
  runTimeout : Bool
  sink : SinkKind
deriving DecidableEq, Repr

namespace Run

def loopRepeatThreshold : Nat := 3
def maxToolRounds : Nat := 24
def maxTruncationContinuations : Nat := 2

def continuationInstruction : String :=
  "上一轮回复因输出长度上限被截断，没有说完。请紧接着截断处继续写完，不要重述已经说过的内容、" ++
  "不要从头开始。如果任务需要调用工具才能完成，现在直接发起工具调用。"

def toolTruncationInstruction : String :=
  "上一轮你发起的工具调用因为参数太长，在传输中被输出长度上限截断了，没有执行。参数内容已丢失，" ++
  "你看不到它。不要原样重写一遍——那样会在同一个位置再次被截断。请把工作拆小后重做：写长文件用 " ++
  "file 的 append 分多次追加（先写第一部分，再逐段补），改动已有文件用 file 的 edit 只发要改的片段，" ++
  "不要把大段内容塞进单次调用的参数里。"

/-! ## Compaction of a request -/

/-- `f64::round`: to the nearest integer, halves away from zero. -/
def roundHalfAway (q : ℚ) : Int := if 0 ≤ q then ⌊q + 1 / 2⌋ else -⌊-q + 1 / 2⌋

/-- The factor that brings the estimates to the provider's own count, taken exactly. -/
def tokenScale (estTotal : Int) (realInputTokens : Option Int) : ℚ :=
  match realInputTokens with
  | some real => if 0 < estTotal ∧ 0 < real then (real : ℚ) / estTotal else 1
  | none => 1

def messageMeta (scale : ℚ) (m : Message) (i : Nat) : MsgMeta :=
  { index := i
    tokens := max (roundHalfAway (estimateTokens m.content * scale)) 1
    isToolResult := m.role = .tool
    isToolDispatch := m.role = .assistant ∧ m.toolCalls ≠ [] }

/-- The metas of a message list, numbered from `k`. -/
def messageMetas (scale : ℚ) : List Message → Nat → List MsgMeta
  | [], _ => []
  | m :: ms, k => messageMeta scale m k :: messageMetas scale ms (k + 1)

/-- Cut a message short if the plan prunes it. -/
def pruneMessage (plan : CompactPlan) (i : Nat) (m : Message) : Message :=
  let pruneChars := (plan.pruneToTokens * 4).toNat
  if plan.pruneToolResults.contains i && pruneChars < m.content.length then
    { m with content := String.ofList (m.content.toList.take pruneChars) ++ "\n…[旧工具输出已剪枝]" }
  else m

def applyCompaction (messages : List Message) (cfg : CompactCfg) (realInputTokens : Option Int) :
    List Message :=
  let estTotal := (messages.map fun m => estimateTokens m.content).sum
  let scale := tokenScale estTotal realInputTokens
  let plan := planCompaction (messageMetas scale messages 0) cfg
  if plan.isNoop then messages
  else keepEdited plan.drop (pruneMessage plan) messages.zipIdx

/-! ## States and actions -/

/-- The fragments of a tool call assembled so far in a turn. -/
structure PartialCall where
  id : String
  name : String
  args : String
deriving DecidableEq, Repr

def PartialCall.empty : PartialCall := { id := "", name := "", args := "" }

/-- Where the driver goes on once a send has returned. -/
inductive AfterSend where
  | started
  | turn (tc : PartialCall)
  | completed
  | returns (outcome : RunOutcome)
  | watchdog
  | exec (call : ToolCallSpec)
  | executed (call : ToolCallSpec) (output : String)
deriving DecidableEq, Repr

/-- Where the driver goes on once the store has answered. -/
inductive AfterPersist where
  | finish
  | loopCheck (call : ToolCallSpec)
  | feedBack (call : ToolCallSpec) (output : String)
deriving DecidableEq, Repr

/-- What the driver waits for. -/
inductive Pc where
  | sending (ev : Event) (k : AfterSend)
  | opening
  | streaming (tc : PartialCall)
  | persisting (e : NewEntry) (k : AfterPersist)
  | toolRunning (call : ToolCallSpec)
  | done (outcome : RunOutcome)
deriving DecidableEq, Repr

structure Drive where
  state : RunState
  acc : String
  reasoning : String
  messages : List Message
  fingerprints : List ToolFingerprint
  toolRounds : Nat
  truncations : Nat
  carried : String
  lastInputTokens : Option Int
  /-- The run's cancel token. -/
  cancelled : Bool
  /-- The run timeout has fired; what is left is its own error event. -/
  timedOut : Bool
  /-- Tasks forwarding a tool's updates and requests have been started. -/
  pumps : Bool
  pc : Pc
  /-- History: the message list of every request handed to the provider. -/
  requests : List (List Message)
  /-- History: every event pushed to the sink, and whether the sink took it. -/
  sent : List (Event × Bool)
  /-- History: every record the store accepted. -/
  persisted : List NewEntry
  /-- History: the error kind that names what stopped the run. -/
  stopped : Option RunErrorKind
deriving DecidableEq, Repr

/-- What a tool's side tasks send on their own. -/
inductive SideEvent where
  | update (callId chunk : String)
  | approval (approvalId summary command : String)
  | userInput (inputId prompt : String)
deriving DecidableEq, Repr

inductive Act where
  /-- The sink answered the pending send. -/
  | sent (ok : Bool)
  | opened
  | openFailed (msg : String)
  /-- The connection was found closed while waiting for the model. -/
  | closed
  /-- The next item of the stream; `genCallId` is the id drawn should a call lack one. -/
  | delta (d : Delta) (genCallId : String)
  | streamErr (msg : String)
  | streamEnd
  /-- The driver noticed the cancel token. -/
  | cancelled
  /-- The idle watchdog fired. -/
  | idle
  /-- The store answered the pending write. -/
  | stored (ok : Bool)
  | toolDone (status : ToolStatus) (content : String)
  | side (e : SideEvent) (ok : Bool)
  /-- Somebody else set the cancel token. -/
  | abort
  | runTimeout
  /-- The provider or the tool panicked. -/
  | panic
deriving DecidableEq, Repr

/-! ## Sending and storing -/

def lifecycle (ctx : RunCtx) (phase : LifecyclePhase) : Event :=
  .lifecycle ctx.sessionId ctx.runId phase

def SideEvent.toEvent (ctx : RunCtx) : SideEvent → Event
  | .update callId chunk => .tool ctx.sessionId ctx.runId callId (.update chunk)
  | .approval id summary command => .approval ctx.sessionId id ctx.runId summary command
  | .userInput id prompt => .userInput ctx.sessionId id ctx.runId prompt

/-- Whether a sink of this kind may give this answer: only a connection refuses. -/
def mayAnswer (sink : SinkKind) (ok : Bool) : Bool := ok || sink = .conn

/-- Hand an event to the sink.  A detached sink writes it to the run's log before it waits for
the connection; the others have it once the send returns. -/
def emitInline (ctx : RunCtx) (ev : Event) (k : AfterSend) (s : Drive) : Drive :=
  match ctx.sink with
  | .detached => { s with sent := s.sent ++ [(ev, true)], pc := .sending ev k }
  | _ => { s with pc := .sending ev k }

def emitError (ctx : RunCtx) (kind : RunErrorKind) (msg : String) (k : AfterSend) (s : Drive) : Drive :=
  emitInline ctx (lifecycle ctx (.error msg kind)) k s

def newEntry (ctx : RunCtx) (role : Role) (content : String) (toolCalls : Option (List ToolCallSpec))
    (toolCallId : Option String) : NewEntry :=
  { sessionId := ctx.sessionId, role, content, tokensEst := estimateTokens content, toolCalls, toolCallId }

/-! ## The main loop -/

/-- Start a model turn: compact the messages and hand them to the provider. -/
def beginTurn (ctx : RunCtx) (s : Drive) : Drive :=
  { s with
    reasoning := ""
    requests := s.requests ++ [applyCompaction s.messages ctx.compactCfg s.lastInputTokens]
    pc := .opening }

/-- The result is fed back to the model and the next turn begins. -/
def feedBack (ctx : RunCtx) (call : ToolCallSpec) (output : String) (s : Drive) : Drive :=
  let r := Agent.step s.state (.toolResult call.id "") s.acc
  let result : Message := { Message.plain .tool output with toolCallId := some call.id }
  beginTurn ctx { s with messages := s.messages ++ [result], state := r.1, acc := "" }

/-- Record the call's fingerprint; stop the run if it goes round in circles or has used up its
tool rounds, otherwise announce the call. -/
def loopCheck (ctx : RunCtx) (call : ToolCallSpec) (s : Drive) : Drive :=
  let fingerprint : ToolFingerprint := { name := call.name, args := call.args }
  let s := { s with fingerprints := s.fingerprints ++ [fingerprint] }
  if detectLoop s.fingerprints loopRepeatThreshold then
    emitError ctx .loopDetected "检测到工具调用打转" (.returns .loopDetected)
      { s with stopped := some .loopDetected }
  else
    let s := { s with toolRounds := s.toolRounds + 1 }
    if maxToolRounds < s.toolRounds then
      emitError ctx .loopDetected "超过最大工具轮数" (.returns .loopDetected)
        { s with stopped := some .loopDetected }
    else
      emitInline ctx (.tool ctx.sessionId ctx.runId call.id (.start call.name call.args)) (.exec call) s

def afterPersist (ctx : RunCtx) (k : AfterPersist) (s : Drive) : Drive :=
  match k with
  | .finish => { s with pc := .done (outcomeOf s.state) }
  | .loopCheck call => loopCheck ctx call s
  | .feedBack call output => feedBack ctx call output s

/-- Store a record; one with neither text nor calls is skipped. -/
def persist (ctx : RunCtx) (e : NewEntry) (k : AfterPersist) (s : Drive) : Drive :=
  if e.content = "" ∧ e.toolCalls = none then afterPersist ctx k s
  else { s with pc := .persisting e k }

def persistResult (ctx : RunCtx) (call : ToolCallSpec) (output : String) (s : Drive) : Drive :=
  persist ctx (newEntry ctx .tool output none (some call.id)) (.feedBack call output) s

def afterSend (ctx : RunCtx) (k : AfterSend) (ok : Bool) (s : Drive) : Drive :=
  match k with
  | .started => if ok then beginTurn ctx s else { s with pc := .done (outcomeOf s.state) }
  | .turn tc => { s with pc := .streaming tc }
  | .completed =>
    persist ctx (newEntry ctx .assistant (s.carried ++ s.acc) none none) .finish s
  | .returns o => { s with pc := .done o }
  | .watchdog => emitError ctx .timeout "空闲看门狗触发" (.returns (outcomeOf s.state)) s
  | .exec call =>
    if ctx.tools then { s with pumps := true, pc := .toolRunning call }
    else persistResult ctx call ("工具 " ++ call.name ++ " 不可用（无工具执行器）") s
  | .executed call output => persistResult ctx call output s

/-! ## Effects of the state machine -/

/-- The event an effect asks for, if any. -/
def effectEvent (ctx : RunCtx) : Effect → Option Event
  | .emitLifecycleStart => some (lifecycle ctx .start)
  | .emitAssistant t => some (.assistant ctx.sessionId ctx.runId t)
  | .emitLifecycleEnd => some (lifecycle ctx .end)
  | .emitLifecycleError msg => some (lifecycle ctx (.error msg .failed))
  | _ => none

def effectText : Effect → String
  | .emitAssistant t => t
  | _ => ""

/-- Carry out the effects of one step.  No step asks for more than one event. -/
def executeEffects (ctx : RunCtx) (effects : List Effect) (k : AfterSend) (s : Drive) : Drive :=
  let s := { s with acc := effects.foldl (fun acc e => acc ++ effectText e) s.acc }
  match effects.findSome? (effectEvent ctx) with
  | some ev => emitInline ctx ev k s
  | none => afterSend ctx k true s

/-- Feed the state machine and go on with `k`. -/
def advance (ctx : RunCtx) (ev : StepEvent) (k : AfterSend) (s : Drive) : Drive :=
  let r := Agent.step s.state ev s.acc
  executeEffects ctx r.2 k { s with state := r.1 }

/-- Feed the state machine a stopping event and return what it makes the outcome. -/
def stopWith (ctx : RunCtx) (ev : StepEvent) (s : Drive) : Drive :=
  advance ctx ev (.returns (outcomeOf (Agent.step s.state ev s.acc).1)) s

/-! ## The end of a turn -/

/-- The model asks for a tool: the call joins the messages and is stored. -/
def toolCallTurn (ctx : RunCtx) (tc : PartialCall) (genCallId : String) (s : Drive) : Drive :=
  let name := if tc.name = "" then unknownToolName else tc.name
  let r := Agent.step s.state (.modelToolCall tc.id name tc.args) s.acc
  let call : ToolCallSpec :=
    { id := if tc.id = "" then genCallId else tc.id, name, args := tc.args }
  let dispatch : Message :=
    { Message.plain .assistant s.acc with
      toolCalls := [call], reasoning := if s.reasoning = "" then none else some s.reasoning }
  let full := s.carried ++ s.acc
  persist ctx (newEntry ctx .assistant full (some [call]) none) (.loopCheck call)
    { s with state := r.1, messages := s.messages ++ [dispatch], carried := "" }

/-- The output limit cut the turn off: ask the model to go on, or give up. -/
def truncatedTurn (ctx : RunCtx) (tc : PartialCall) (s : Drive) : Drive :=
  let s := { s with truncations := s.truncations + 1 }
  if maxTruncationContinuations < s.truncations then
    emitError ctx .truncated
      ("模型输出连续 " ++ toString s.truncations ++
        " 轮被长度上限截断，未能完成回答。可在 config 调大 model.max_output_tokens。")
      (.returns (.failed "输出被 max_tokens 截断")) { s with stopped := some .truncated }
  else
    let s :=
      if s.acc = "" then s
      else { s with messages := s.messages ++ [.plain .assistant s.acc], carried := s.carried ++ s.acc }
    let instruction := if tc.args = "" then continuationInstruction else toolTruncationInstruction
    beginTurn ctx { s with messages := s.messages ++ [.plain .user instruction], acc := "" }

def PartialCall.add (tc : PartialCall) (d : ToolCallDelta) : PartialCall :=
  { id := if d.callId = "" then tc.id else d.callId
    name := match d.name with
      | some n => if n = "" then tc.name else n
      | none => tc.name
    args := tc.args ++ d.argsChunk }

/-- One item of the stream. -/
def onDelta (ctx : RunCtx) (tc : PartialCall) (d : Delta) (genCallId : String) (s : Drive) : Drive :=
  match d with
  | .text t => advance ctx (.modelText t) (.turn tc) s
  | .reasoning r =>
    emitInline ctx (.reasoning ctx.sessionId ctx.runId r) (.turn tc) { s with reasoning := s.reasoning ++ r }
  | .toolCall d => { s with pc := .streaming (tc.add d) }
  | .usage u => if 0 < u.inputTokens then { s with lastInputTokens := some u.inputTokens } else s
  | .done .toolUse => toolCallTurn ctx tc genCallId s
  | .done .length => truncatedTurn ctx tc s
  | .done .stop => advance ctx .modelDone .completed s

/-! ## The driver -/

/-- The run before its first await. -/
def start (ctx : RunCtx) : Drive :=
  advance ctx .start .started
    { state := .idle, acc := "", reasoning := ""
      messages := if ctx.history.isEmpty then [.plain .user ctx.userText] else ctx.history
      fingerprints := [], toolRounds := 0, truncations := 0, carried := "", lastInputTokens := none
      cancelled := false, timedOut := false, pumps := false, pc := .opening, requests := []
      sent := [], persisted := [], stopped := none }

/-- The sink's answer to the pending send: what a connection refuses, it has still been
handed, and the refusal cancels the run. -/
def onSent (ctx : RunCtx) (ev : Event) (k : AfterSend) (ok : Bool) (s : Drive) : Drive :=
  let s := if ctx.sink = .detached then s else { s with sent := s.sent ++ [(ev, ok)] }
  afterSend ctx k ok { s with cancelled := s.cancelled || !ok }

/-- What a model error stands for: once the token is set it is the provider giving up on the
stream. -/
def errorCause (s : Drive) : RunErrorKind := if s.cancelled then .aborted else .failed

/-- Whether the driver can be cut here: a broadcast answers a send at once. -/
def Pc.waits (sink : SinkKind) : Pc → Bool
  | .sending _ _ => sink ≠ .broadcast
  | .done _ => false
  | _ => true

/-- One leg of the driver, or something happening beside it. -/
def step (ctx : RunCtx) (s : Drive) (a : Act) : Option Drive :=
  match a, s.pc with
  | .sent ok, .sending ev k => if mayAnswer ctx.sink ok then some (onSent ctx ev k ok s) else none
  | .opened, .opening => some { s with pc := .streaming .empty }
  | .openFailed msg, .opening =>
    some (stopWith ctx (.modelError msg) { s with stopped := some (errorCause s) })
  | .closed, .opening =>
    if ctx.sink = .conn then
      some (stopWith ctx .abort { s with cancelled := true, stopped := some .aborted })
    else none
  | .closed, .streaming _ =>
    if ctx.sink = .conn then
      some (stopWith ctx .abort { s with cancelled := true, stopped := some .aborted })
    else none
  | .delta d genCallId, .streaming tc => some (onDelta ctx tc d genCallId s)
  | .streamErr msg, .streaming _ =>
    some (stopWith ctx (.modelError msg) { s with stopped := some (errorCause s) })
  | .streamEnd, .streaming _ => some (advance ctx .modelDone .completed s)
  | .cancelled, .streaming _ =>
    if s.cancelled then some (stopWith ctx .abort { s with stopped := some .aborted }) else none
  | .idle, .streaming _ =>
    some (advance ctx .abort .watchdog { s with cancelled := true, stopped := some .timeout })
  | .stored ok, .persisting e k =>
    some (afterPersist ctx k (if ok then { s with persisted := s.persisted ++ [e] } else s))
  | .toolDone status content, .toolRunning call =>
    some (emitInline ctx (.tool ctx.sessionId ctx.runId call.id (.end status)) (.executed call content) s)
  | .side e ok, _ =>
    if s.pumps && mayAnswer ctx.sink ok then some { s with sent := s.sent ++ [(e.toEvent ctx, ok)] }
    else none
  | .abort, _ => some { s with cancelled := true }
  | .runTimeout, pc =>
    if ctx.runTimeout && !s.timedOut && pc.waits ctx.sink then
      some (emitError ctx .timeout "run 超时" (.returns .aborted)
        { s with cancelled := true, timedOut := true, stopped := some .timeout })
    else none
  | .panic, .opening => some { s with stopped := some .panicked, pc := .done .panicked }
  | .panic, .streaming _ => some { s with stopped := some .panicked, pc := .done .panicked }
  | .panic, .toolRunning _ => some { s with stopped := some .panicked, pc := .done .panicked }
  | _, _ => none

/-! ## What a leg can be -/

/-- The driver waits for the model. -/
def Pc.AtModel (pc : Pc) : Prop := pc = .opening ∨ ∃ tc, pc = .streaming tc

/-- All a leg can do, one case for each action the program counter lets happen. -/
inductive Leg (ctx : RunCtx) (s : Drive) : Act → Drive → Prop
  | sent {ev k ok} (hpc : s.pc = .sending ev k) (hok : mayAnswer ctx.sink ok = true) :
      Leg ctx s (.sent ok) (onSent ctx ev k ok s)
  | opened (hpc : s.pc = .opening) : Leg ctx s .opened { s with pc := .streaming .empty }
  | openFailed {msg} (hpc : s.pc = .opening) :
      Leg ctx s (.openFailed msg) (stopWith ctx (.modelError msg) { s with stopped := some (errorCause s) })
  | closed (hpc : s.pc.AtModel) (hsink : ctx.sink = .conn) :
      Leg ctx s .closed
        (stopWith ctx .abort { s with cancelled := true, stopped := some .aborted })
  | delta {tc d genCallId} (hpc : s.pc = .streaming tc) :
      Leg ctx s (.delta d genCallId) (onDelta ctx tc d genCallId s)
  | streamErr {tc msg} (hpc : s.pc = .streaming tc) :
      Leg ctx s (.streamErr msg) (stopWith ctx (.modelError msg) { s with stopped := some (errorCause s) })
  | streamEnd {tc} (hpc : s.pc = .streaming tc) :
      Leg ctx s .streamEnd (advance ctx .modelDone .completed s)
  | cancelled {tc} (hpc : s.pc = .streaming tc) (hcancel : s.cancelled = true) :
      Leg ctx s .cancelled (stopWith ctx .abort { s with stopped := some .aborted })
  | idle {tc} (hpc : s.pc = .streaming tc) :
      Leg ctx s .idle
        (advance ctx .abort .watchdog { s with cancelled := true, stopped := some .timeout })
  | stored {e k ok} (hpc : s.pc = .persisting e k) :
      Leg ctx s (.stored ok)
        (afterPersist ctx k (if ok then { s with persisted := s.persisted ++ [e] } else s))
  | toolDone {call status content} (hpc : s.pc = .toolRunning call) :
      Leg ctx s (.toolDone status content)
        (emitInline ctx (.tool ctx.sessionId ctx.runId call.id (.end status))
          (.executed call content) s)
  | side {e ok} (hpumps : s.pumps = true) (hok : mayAnswer ctx.sink ok = true) :
      Leg ctx s (.side e ok) { s with sent := s.sent ++ [(e.toEvent ctx, ok)] }
  | abort : Leg ctx s .abort { s with cancelled := true }
  | runTimeout (ht : ctx.runTimeout = true) (hfirst : s.timedOut = false)
      (hpc : s.pc.waits ctx.sink = true) :
      Leg ctx s .runTimeout
        (emitError ctx .timeout "run 超时" (.returns .aborted)
          { s with cancelled := true, timedOut := true, stopped := some .timeout })
  | panic (hpc : s.pc.AtModel ∨ ∃ call, s.pc = .toolRunning call) :
      Leg ctx s .panic { s with stopped := some .panicked, pc := .done .panicked }

theorem leg_of_step {ctx : RunCtx} {s t : Drive} {a : Act} (h : step ctx s a = some t) :
    Leg ctx s a t := by
  unfold step at h
  split at h
  case h_1 ok ev k hpc =>
    split at h
    · next hok =>
      obtain rfl := Option.some.inj h
      exact .sent hpc hok
    · simp at h
  case h_2 hpc =>
    obtain rfl := Option.some.inj h
    exact .opened hpc
  case h_3 msg hpc =>
    obtain rfl := Option.some.inj h
    exact .openFailed hpc
  case h_4 hpc =>
    split at h
    · next hsink =>
      obtain rfl := Option.some.inj h
      exact .closed (Or.inl hpc) hsink
    · simp at h
  case h_5 tc hpc =>
    split at h
    · next hsink =>
      obtain rfl := Option.some.inj h
      exact .closed (Or.inr ⟨tc, hpc⟩) hsink
    · simp at h
  case h_6 d genCallId tc hpc =>
    obtain rfl := Option.some.inj h
    exact .delta hpc
  case h_7 msg tc hpc =>
    obtain rfl := Option.some.inj h
    exact .streamErr hpc
  case h_8 tc hpc =>
    obtain rfl := Option.some.inj h
    exact .streamEnd hpc
  case h_9 tc hpc =>
    split at h
    · next hcancel =>
      obtain rfl := Option.some.inj h
      exact .cancelled hpc hcancel
    · simp at h
  case h_10 tc hpc =>
    obtain rfl := Option.some.inj h
    exact .idle hpc
  case h_11 ok e k hpc =>
    obtain rfl := Option.some.inj h
    exact .stored hpc
  case h_12 status content call hpc =>
    obtain rfl := Option.some.inj h
    exact .toolDone hpc
  case h_13 e ok pc =>
    split at h
    · next hside =>
      obtain rfl := Option.some.inj h
      rw [Bool.and_eq_true] at hside
      exact .side hside.1 hside.2
    · simp at h
  case h_14 =>
    obtain rfl := Option.some.inj h
    exact .abort
  case h_15 pc =>
    split at h
    · next ht =>
      obtain rfl := Option.some.inj h
      simp only [Bool.and_eq_true, Bool.not_eq_true'] at ht
      exact .runTimeout ht.1.1 ht.1.2 ht.2
    · simp at h
  case h_16 hpc =>
    obtain rfl := Option.some.inj h
    exact .panic (Or.inl (Or.inl hpc))
  case h_17 tc hpc =>
    obtain rfl := Option.some.inj h
    exact .panic (Or.inl (Or.inr ⟨tc, hpc⟩))
  case h_18 call hpc =>
    obtain rfl := Option.some.inj h
    exact .panic (Or.inr ⟨call, hpc⟩)
  case h_19 => simp at h

end Run

end OhMyClaw
