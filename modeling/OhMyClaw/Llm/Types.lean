import Mathlib.Data.List.Basic

/-!
# Messages and stream deltas

The request and response types every provider is normalised to.  A model request is
here its message list: the model name, the system prompt, the tool specifications and
the sampling limits are sent along unchanged and no function of this development reads
them.
-/

namespace OhMyClaw

inductive MsgRole where
  | system | user | assistant | tool
deriving DecidableEq, Repr

/-- A tool call an assistant message carries, already assembled from its fragments. -/
structure ToolCallSpec where
  id : String
  name : String
  /-- The argument JSON text, passed back as it came. -/
  args : String
deriving DecidableEq, Repr

structure Message where
  role : MsgRole
  content : String
  /-- For a tool result: the id of the call it answers. -/
  toolCallId : Option String
  /-- For an assistant message: the calls it makes. -/
  toolCalls : List ToolCallSpec
  /-- Reasoning text a thinking model wants back with its tool call. -/
  reasoning : Option String
deriving DecidableEq, Repr

namespace Message

/-- A message without any tool structure. -/
def plain (role : MsgRole) (content : String) : Message :=
  { role, content, toolCallId := none, toolCalls := [], reasoning := none }

@[simp] theorem plain_role (r : MsgRole) (c : String) : (plain r c).role = r := rfl
@[simp] theorem plain_content (r : MsgRole) (c : String) : (plain r c).content = c := rfl
@[simp] theorem plain_toolCallId (r : MsgRole) (c : String) : (plain r c).toolCallId = none := rfl
@[simp] theorem plain_toolCalls (r : MsgRole) (c : String) : (plain r c).toolCalls = [] := rfl
@[simp] theorem plain_reasoning (r : MsgRole) (c : String) : (plain r c).reasoning = none := rfl

end Message

structure ToolCallDelta where
  callId : String
  name : Option String
  argsChunk : String
deriving DecidableEq, Repr

structure Usage where
  inputTokens : Nat
  outputTokens : Nat
deriving DecidableEq, Repr

inductive FinishReason where
  | stop | toolUse | length
deriving DecidableEq, Repr

/-- One item of a provider's stream. -/
inductive Delta where
  | text (t : String)
  | reasoning (r : String)
  | toolCall (tc : ToolCallDelta)
  | usage (u : Usage)
  | done (reason : FinishReason)
deriving DecidableEq, Repr

end OhMyClaw
