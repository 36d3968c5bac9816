import OhMyClaw.Http.Chat

/-!
# The responses route

`POST /v1/responses` submits a turn and answers either with one response object, built from
the events up to the run's terminal, or with a stream of server-sent events that open, fill
and close one output item.  Both loops record in `seen` what they have read.
-/

namespace OhMyClaw

namespace Responses

inductive ResponseStatus where
  | inProgress | completed | failed | cancelled
deriving DecidableEq, Repr

structure ResponseError where
  message : String
  code : String
deriving DecidableEq, Repr

/-- A message item with one text part; without `text` its content is empty. -/
structure OutputItem where
  id : String
  status : String
  text : Option String
deriving DecidableEq, Repr

structure Usage where
  inputTokens : Nat
  outputTokens : Nat
  totalTokens : Nat
deriving DecidableEq, Repr

structure Response where
  id : String
  createdAt : Int
  status : ResponseStatus
  completedAt : Option Int
  error : Option ResponseError
  output : List OutputItem
  usage : Usage
  model : String
deriving DecidableEq, Repr

/-- What a request has settled before it reads events.  `msgId` is the id drawn for the output
item and `now` the time read at the end. -/
structure RespCtx where
  responseId : String
  runId : String
  session : String
  model : String
  createdAt : Int
  msgId : String
  now : Int
deriving DecidableEq, Repr

/-- Characters over four, but one for a text that has fewer. -/
def estimateTokens (text : String) : Nat := max (text.length / 4) (if text = "" then 0 else 1)

def usageOf (inputTokens : Nat) (text : String) : Usage :=
  { inputTokens, outputTokens := estimateTokens text
    totalTokens := inputTokens + estimateTokens text }

def errorCode : RunErrorKind → String
  | .aborted => "cancelled"
  | .failed => "internal_error"
  | .panicked => "internal_error"
  | .loopDetected => "loop_detected"
  | .timeout => "timeout"
  | .truncated => "truncated"

/-! ## One response object -/

structure Accumulated where
  text : String
  inputTokens : Nat
  status : ResponseStatus
  error : Option ResponseError
  /-- History: the events read. -/
  seen : List WireEvent
deriving DecidableEq, Repr

def Accumulated.init : Accumulated :=
  { text := "", inputTokens := 0, status := .completed, error := none, seen := [] }

/-- One turn of the loop; the flag ends it. -/
def accumulate (ctx : RespCtx) (a : Accumulated) (e : WireEvent) : Accumulated × Bool :=
  let a := { a with seen := a.seen ++ [e] }
  match e with
  | .inline (.lifecycle _ rid phase) =>
    if rid = ctx.runId then
      match phase with
      | .start => (a, false)
      | .end => (a, true)
      | .error message kind =>
        ({ a with
            status := if kind = .aborted then .cancelled else .failed
            error := some { message, code := errorCode kind } }, true)
    else (a, false)
  | .inline (.assistant _ rid delta) =>
    if rid = ctx.runId then ({ a with text := a.text ++ delta }, false) else (a, false)
  | .usage session n _ =>
    if session = ctx.session then ({ a with inputTokens := n }, false) else (a, false)
  | _ => (a, false)

def Accumulated.response (ctx : RespCtx) (a : Accumulated) : Response :=
  { id := ctx.responseId, createdAt := ctx.createdAt, status := a.status
    completedAt := some ctx.now, error := a.error
    output :=
      if a.text = "" then []
      else [{ id := "msg_" ++ ctx.msgId, status := "completed", text := some a.text }]
    usage := usageOf a.inputTokens a.text, model := ctx.model }

/-- Drain events until the run is at its end; also says what has been read. -/
def accumulateResponse (ctx : RespCtx) (frames : List Frame) :
    Except HttpError Response × List WireEvent :=
  let r := Frame.drain (accumulate ctx) .init frames
  if r.2 then (.ok (r.1.response ctx), r.1.seen)
  else (.error (.protocol "daemon closed connection before the run finished"), r.1.seen)

/-! ## A stream of events -/

/-- A server-sent event, without the indices, which are all 0, and with its number last. -/
inductive SseEvent where
  | responseCreated (response : Response) (seq : Nat)
  | outputItemAdded (itemId : String) (item : OutputItem) (seq : Nat)
  | contentPartAdded (itemId : String) (seq : Nat)
  | outputTextDelta (itemId delta : String) (seq : Nat)
  | outputTextDone (itemId text : String) (seq : Nat)
  | outputItemDone (itemId : String) (item : OutputItem) (seq : Nat)
  | responseCompleted (response : Response) (seq : Nat)
  | responseFailed (responseId : String) (error : ResponseError) (seq : Nat)
  /-- The literal `[DONE]` behind the last event. -/
  | streamDone
deriving DecidableEq, Repr

structure SseState where
  itemId : Option String
  sequenceNumber : Nat
  text : String
  inputTokens : Nat
  /-- What has been written. -/
  out : List SseEvent
  /-- History: the events read. -/
  seen : List WireEvent
deriving DecidableEq, Repr

def SseState.init : SseState :=
  { itemId := none, sequenceNumber := 0, text := "", inputTokens := 0, out := [], seen := [] }

/-- Write an event under the next number. -/
def SseState.emit (s : SseState) (f : Nat → SseEvent) : SseState :=
  { s with out := s.out ++ [f s.sequenceNumber], sequenceNumber := s.sequenceNumber + 1 }

def SseState.done (s : SseState) : SseState := { s with out := s.out ++ [.streamDone] }

def SseState.buildResponse (ctx : RespCtx) (s : SseState) (status : ResponseStatus)
    (completedAt : Option Int) : Response :=
  { id := ctx.responseId, createdAt := ctx.createdAt, status, completedAt, error := none
    output :=
      match s.itemId with
      | some id =>
        let itemStatus :=
          match status with
          | .completed => "completed"
          | .inProgress => "in_progress"
          | _ => "incomplete"
        [{ id, status := itemStatus, text := some s.text }]
      | none => []
    usage := usageOf s.inputTokens s.text, model := ctx.model }

/-- The item and its text are closed, if there is one. -/
def SseState.closeItem (s : SseState) : SseState :=
  match s.itemId with
  | some id =>
    (s.emit (.outputTextDone id s.text)).emit
      (.outputItemDone id { id, status := "completed", text := some s.text })
  | none => s

/-- The first delta opens the item and its text. -/
def SseState.openItem (ctx : RespCtx) (s : SseState) : SseState :=
  match s.itemId with
  | some _ => s
  | none =>
    let id := "msg_" ++ ctx.msgId
    (({ s with itemId := some id }.emit
      (.outputItemAdded id { id, status := "in_progress", text := none })).emit (.contentPartAdded id))

/-- One turn of the loop; the flag ends it. -/
def eventToSse (ctx : RespCtx) (s : SseState) (e : WireEvent) : SseState × Bool :=
  let s := { s with seen := s.seen ++ [e] }
  match e with
  | .inline (.lifecycle _ rid phase) =>
    if rid = ctx.runId then
      match phase with
      | .start => (s.emit (.responseCreated (s.buildResponse ctx .inProgress none)), false)
      | .end =>
        let closed := s.closeItem
        ((closed.emit (.responseCompleted (closed.buildResponse ctx .completed (some ctx.now)))).done, true)
      | .error message kind =>
        ((s.emit (.responseFailed ctx.responseId { message, code := errorCode kind })).done, true)
    else (s, false)
  | .inline (.assistant _ rid delta) =>
    if rid = ctx.runId then
      let opened := { s.openItem ctx with text := s.text ++ delta }
      (opened.emit (.outputTextDelta ("msg_" ++ ctx.msgId) delta), false)
    else (s, false)
  | .usage session n _ =>
    if session = ctx.session then ({ s with inputTokens := n }, false) else (s, false)
  | _ => (s, false)

/-- The stream, whether the connection ended before it, and what has been read. -/
def streamSse (ctx : RespCtx) (frames : List Frame) :
    List SseEvent × Option HttpError × List WireEvent :=
  let r := Frame.drain (eventToSse ctx) .init frames
  if r.2 then (r.1.out, none, r.1.seen)
  else (r.1.out, some (.protocol "daemon closed connection mid-stream"), r.1.seen)

/-! ## The route -/

/-- The answer to the request: one object, or a stream and the error it ended with. -/
inductive Reply where
  | object (result : Except HttpError Response)
  | stream (out : List SseEvent) (failed : Option HttpError)

/-- Wait for the run id, then read the run's events; `ctx.runId` is filled in from the answer.
Also says what has been read. -/
def createResponse (stream : Bool) (ctx : RespCtx) (frames : List Frame) :
    Except HttpError (Reply × List WireEvent) :=
  match awaitRunId frames with
  | .error e => .error e
  | .ok (runId, fs) =>
    if stream then
      let r := streamSse { ctx with runId } fs
      .ok (.stream r.1 r.2.1, r.2.2)
    else
      let r := accumulateResponse { ctx with runId } fs
      .ok (.object r.1, r.2)

end Responses

end OhMyClaw
