import OhMyClaw.Proto.Event

/-!
# Frames

What the server sends on a connection: the answer to a request, or an event.  Besides the
events of a run there are those of a session or of the whole server; of the latter only the
session is kept here.
-/

namespace OhMyClaw

/-- The state of a background task. -/
inductive TaskState where
  | queued | running | done | failed | cancelled
deriving DecidableEq, Repr

structure TaskUpdate where
  state : TaskState
  detail : Option String
deriving DecidableEq, Repr

inductive WireEvent where
  | inline (e : Event)
  | usage (session : String) (inputTokens contextWindow : Nat)
  | proactive (session : String)
  | task (session : String)
deriving DecidableEq, Repr

inductive ErrorKind where
  | protoVersionMismatch | badRequest | unsupported | internal | aborted | timeout
deriving DecidableEq, Repr

structure ProtoError where
  kind : ErrorKind
  message : String
deriving DecidableEq, Repr

/-- What a method returns; all that has no part in a chat is `other`. -/
inductive MethodOk where
  | hello
  | chatSend (runId : String)
  | chatResume (session : String)
  | empty
  | other (name : String)
deriving DecidableEq, Repr

inductive Frame where
  | res (result : Except ProtoError MethodOk)
  | event (e : WireEvent)

/-- The run an event belongs to. -/
def Event.runId : Event → String
  | .lifecycle _ r _ => r
  | .assistant _ r _ => r
  | .reasoning _ r _ => r
  | .tool _ r _ _ => r
  | .approval _ _ r _ _ => r
  | .userInput _ _ r _ => r

/-- Whether the event is of the run: it carries the run's id. -/
def WireEvent.ofRun (runId : String) : WireEvent → Bool
  | .inline e => e.runId = runId
  | _ => false

def Event.isTerminal (e : Event) : Bool := e.lifecycle?.any LifecyclePhase.isTerminal

def WireEvent.isTerminal : WireEvent → Bool
  | .inline e => e.isTerminal
  | _ => false

/-- The events among the frames. -/
def Frame.events : List Frame → List WireEvent
  | [] => []
  | .event e :: fs => e :: events fs
  | .res _ :: fs => events fs

/-- Read events until one of them ends the loop; answers are skipped.  Says whether one did. -/
def Frame.drain {σ : Type} (onEvent : σ → WireEvent → σ × Bool) : σ → List Frame → σ × Bool
  | s, [] => (s, false)
  | s, .event e :: fs =>
    let r := onEvent s e
    if r.2 then (r.1, true) else drain onEvent r.1 fs
  | s, .res _ :: fs => drain onEvent s fs

end OhMyClaw
