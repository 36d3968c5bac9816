import OhMyClaw.Proto.Frame

/-!
# The native chat routes

A send waits for the answer that carries the run's id and then relays the run's events until
its terminal.  A resume relays what came ahead of the answer as well.  `frames` is what the
daemon puts on the connection behind the request, up to the connection's end.
-/

namespace OhMyClaw

inductive HttpError where
  | badRequest (message : String)
  | internal (message : String)
  | protocol (message : String)
deriving DecidableEq, Repr

def HttpError.fromProto (e : ProtoError) : HttpError :=
  match e.kind with
  | .badRequest => .badRequest e.message
  | .unsupported => .badRequest ("unsupported: " ++ e.message)
  | .aborted => .internal ("aborted: " ++ e.message)
  | .timeout => .internal ("timeout: " ++ e.message)
  | _ => .internal e.message

/-- The variant's name; the payload's debug text is left out. -/
def MethodOk.debug : MethodOk → String
  | .hello => "Hello"
  | .chatSend _ => "ChatSend"
  | .chatResume _ => "ChatResume"
  | .empty => "Empty"
  | .other name => name

/-- Read up to the next answer.  Events ahead of it are dropped. -/
def awaitRes : List Frame → Except HttpError (MethodOk × List Frame)
  | [] => .error (.protocol "daemon closed connection before responding")
  | .res (.ok ok) :: fs => .ok (ok, fs)
  | .res (.error e) :: _ => .error (.fromProto e)
  | .event _ :: fs => awaitRes fs

/-- The run id a send is answered with, and what follows the answer. -/
def awaitRunId (frames : List Frame) : Except HttpError (String × List Frame) :=
  match awaitRes frames with
  | .ok (.chatSend runId, fs) => .ok (runId, fs)
  | .ok (other, _) => .error (.protocol ("expected chat_send ok, got " ++ other.debug))
  | .error e => .error e

namespace Native

def eventName : WireEvent → String
  | .inline (.lifecycle _ _ _) => "lifecycle"
  | .inline (.assistant _ _ _) => "assistant"
  | .inline (.reasoning _ _ _) => "reasoning"
  | .inline (.tool _ _ _ _) => "tool"
  | .inline (.approval _ _ _ _ _) => "approval"
  | .inline (.userInput _ _ _ _) => "user_input"
  | .usage _ _ _ => "usage"
  | .proactive _ => "proactive"
  | .task _ => "task"

/-- Whether the event is relayed to this run's client; usage carries no run id and goes by
session. -/
def belongs (e : WireEvent) (runId session : String) : Bool :=
  match e with
  | .inline e => e.runId = runId
  | .usage s _ _ => s = session
  | .proactive _ => false
  | .task _ => false

/-- What the client is sent: the run id, a named event with its data, or the news that the
daemon is gone. -/
inductive Item where
  | accepted (runId session : String)
  | event (name : String) (data : WireEvent)
  | failed (e : HttpError)
deriving DecidableEq, Repr

def sseForEvent (e : WireEvent) (runId session : String) : Option (Item × Bool) :=
  if belongs e runId session then some (.event (eventName e) e, e.isTerminal) else none

/-- One turn of the relaying loop; the flag ends it. -/
def relay (runId session : String) (items : List Item) (e : WireEvent) : List Item × Bool :=
  match sseForEvent e runId session with
  | some (item, terminal) => (items ++ [item], terminal)
  | none => (items, false)

/-- Relay what has been buffered, then what the connection still brings. -/
def streamNativeAfter (frames : List Frame) (runId session : String) (head : List Frame)
    (emitAccepted : Bool) : List Item :=
  let first := if emitAccepted then [.accepted runId session] else []
  let buffered := Frame.drain (relay runId session) first head
  if buffered.2 then buffered.1
  else
    let live := Frame.drain (relay runId session) buffered.1 frames
    if live.2 then live.1
    else live.1 ++ [.failed (.protocol "daemon closed connection mid-stream")]

def send (session : String) (frames : List Frame) : Except HttpError (List Item) :=
  match awaitRunId frames with
  | .ok (runId, fs) => .ok (streamNativeAfter fs runId session [] true)
  | .error e => .error e

/-- Read up to the answer of a resume and keep the events ahead of it. -/
def awaitResume : List Frame → List Frame → Except HttpError (List Frame × List Frame)
  | _, [] => .error (.protocol "daemon closed before resume ok")
  | buffered, .res (.ok (.chatResume _)) :: fs => .ok (buffered, fs)
  | _, .res (.ok other) :: _ => .error (.protocol ("expected chat_resume ok, got " ++ other.debug))
  | _, .res (.error e) :: _ => .error (.fromProto e)
  | buffered, .event e :: fs => awaitResume (buffered ++ [.event e]) fs

def resume (runId session : String) (frames : List Frame) : Except HttpError (List Item) :=
  match awaitResume [] frames with
  | .ok (buffered, fs) => .ok (streamNativeAfter fs runId session buffered false)
  | .error e => .error e

/-- The events among what the client is sent. -/
def eventsOf : List Item → List WireEvent
  | [] => []
  | .event _ e :: items => e :: eventsOf items
  | .accepted _ _ :: items => eventsOf items
  | .failed _ :: items => eventsOf items

end Native

end OhMyClaw
