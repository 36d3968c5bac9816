import OhMyClaw.Llm.OpenAi
import OhMyClaw.Llm.Protocol

/-!
# What a provider is sent

The body of a chat completion, and how the provider reads it.  A map of `serde_json` keeps its keys in order,
so the members of an object are written in the order of their keys here.

    request_received    the provider reads the request that was made: its model, messages, tools and limits
-/

namespace OhMyClaw.OpenAi

structure ToolSpec where
  name : String
  description : String
  parameters : Json
deriving Repr

/-- A request.  The temperature is the JSON `serde_json` makes of the `f32`. -/
structure ModelRequest where
  model : String
  system : Option String
  messages : List Message
  tools : List ToolSpec
  maxTokens : Option UInt32
  temperature : Option Json
deriving Repr

/-- The names the output limit has. -/
def IsLimitField (field : String) : Prop := field = "max_tokens" ∨ field = "max_completion_tokens"

instance (field : String) : Decidable (IsLimitField field) := inferInstanceAs (Decidable (_ ∨ _))

structure OpenAiProvider where
  baseUrl : String
  maxTokensField : Option String
  known : ∀ field, maxTokensField = some field → IsLimitField field

namespace OpenAiProvider

def new (baseUrl : Option String) : OpenAiProvider :=
  { baseUrl := baseUrl.getD "https://api.openai.com/v1", maxTokensField := none, known := by simp }

/-- Any other name leaves it to `maxTokensField`. -/
def withMaxTokensField (p : OpenAiProvider) (field : String) : OpenAiProvider where
  baseUrl := p.baseUrl
  maxTokensField := if IsLimitField field then some field else none
  known f hf := by
    split at hf
    · next h => exact Option.some.inj hf ▸ h
    · cases hf

end OpenAiProvider

/-! ## The body -/

/-- The field for the output limit, by the model's name and the endpoint. -/
def maxTokensField (model baseUrl : String) : String :=
  let m := model.toList.map Char.toLower
  let u := baseUrl.toList.map Char.toLower
  if RustStr.contains u "deepseek".toList || RustStr.startsWith m "deepseek".toList then "max_tokens"
  else if RustStr.contains u "moonshot".toList || RustStr.startsWith m "kimi".toList ||
      RustStr.startsWith m "moonshot".toList || RustStr.contains u "bigmodel".toList ||
      RustStr.startsWith m "glm".toList || RustStr.startsWith m "mistral".toList then "max_tokens"
  else "max_completion_tokens"

def roleText : MsgRole → String
  | .system => "system"
  | .user => "user"
  | .assistant => "assistant"
  | .tool => "tool"

def member (key : String) (v : Option Json) : List (String × Json) := (v.map (key, ·)).toList

def toolCallJson (tc : ToolCallSpec) : Json :=
  .obj [("function", .obj [("arguments", .str tc.args), ("name", .str tc.name)]), ("id", .str tc.id),
    ("type", .str "function")]

def messageJson (m : Message) : Json :=
  match m.role with
  | .tool =>
    .obj ([("content", .str m.content), ("role", .str (roleText .tool))] ++
      member "tool_call_id" (m.toolCallId.map .str))
  | .assistant =>
    if m.toolCalls = [] then .obj [("content", .str m.content), ("role", .str (roleText .assistant))]
    else
      .obj ([("content", if m.content = "" then .null else .str m.content)] ++
        member "reasoning_content" (m.reasoning.map .str) ++
        [("role", .str (roleText .assistant)), ("tool_calls", .arr (m.toolCalls.map toolCallJson))])
  | role => .obj [("content", .str m.content), ("role", .str (roleText role))]

def toolJson (t : ToolSpec) : Json :=
  .obj [("function", .obj [("description", .str t.description), ("name", .str t.name), ("parameters", t.parameters)]),
    ("type", .str "function")]

def systemJson (sys : String) : Json := .obj [("content", .str sys), ("role", .str (roleText .system))]

/-- The limit under its name. -/
def limit (p : OpenAiProvider) (req : ModelRequest) : Option (String × UInt32) :=
  req.maxTokens.map fun mt => (p.maxTokensField.getD (maxTokensField req.model p.baseUrl), mt)

def body (p : OpenAiProvider) (req : ModelRequest) : Json :=
  .obj (((limit p req).map fun l => (l.1, Json.num (Json.Number.ofNat l.2.toNat))).toList ++
    [("messages", .arr ((req.system.map systemJson).toList ++ req.messages.map messageJson)),
     ("model", .str req.model), ("stream", .bool true),
     ("stream_options", .obj [("include_usage", .bool true)])] ++
    member "temperature" req.temperature ++
    if req.tools = [] then [] else [("tool_choice", .str "auto"), ("tools", .arr (req.tools.map toolJson))])

/-! ## The provider's side -/

def roleOf (s : String) : Option MsgRole :=
  if s = "system" then some .system else if s = "user" then some .user
  else if s = "assistant" then some .assistant else if s = "tool" then some .tool else none

/-- A text that may be missing. -/
def readText : Option Json → Option (Option String)
  | none => some none
  | some (.str s) => some (some s)
  | some _ => none

def readToolCall (j : Json) : Option ToolCallSpec :=
  match (get "id" j).bind asStr, ((get "function" j).bind (get "name")).bind asStr,
    ((get "function" j).bind (get "arguments")).bind asStr with
  | some id, some name, some args => some { id, name, args }
  | _, _, _ => none

def readToolCalls : Option Json → Option (List ToolCallSpec)
  | none => some []
  | some (.arr js) => js.mapM readToolCall
  | some _ => none

/-- No content (`null`) is no text. -/
def readContent : Option Json → Option String
  | some (.str s) => some s
  | some .null => some ""
  | _ => none

def readMessage (j : Json) : Option Message :=
  match ((get "role" j).bind asStr).bind roleOf, readContent (get "content" j), readText (get "tool_call_id" j),
    readToolCalls (get "tool_calls" j), readText (get "reasoning_content" j) with
  | some role, some content, some toolCallId, some toolCalls, some reasoning =>
    some { role, content, toolCallId, toolCalls, reasoning }
  | _, _, _, _, _ => none

def readTool (j : Json) : Option ToolSpec :=
  match ((get "function" j).bind (get "name")).bind asStr, ((get "function" j).bind (get "description")).bind asStr,
    (get "function" j).bind (get "parameters") with
  | some name, some description, some parameters => some { name, description, parameters }
  | _, _, _ => none

def readTools : Option Json → Option (List ToolSpec)
  | none => some []
  | some (.arr js) => js.mapM readTool
  | some _ => none

/-- A request as the provider has it. -/
structure Received where
  model : String
  messages : List Message
  tools : List ToolSpec
  /-- The limit for the whole output, and the one under the older name. -/
  maxCompletionTokens : Option Nat
  maxTokens : Option Nat
  temperature : Option Json
deriving Repr

def readRequest (j : Json) : Option Received :=
  match (get "model" j).bind asStr, get "messages" j, readTools (get "tools" j) with
  | some model, some (.arr js), some tools =>
    (js.mapM readMessage).map fun messages =>
      { model, messages, tools, maxCompletionTokens := (get "max_completion_tokens" j).bind asU64
        maxTokens := (get "max_tokens" j).bind asU64, temperature := get "temperature" j }
  | _, _, _ => none

/-- What of a message is sent: a call's answer names the call, an assistant message its calls and, with them, its
reasoning. -/
def sent (m : Message) : Message :=
  { m with
    toolCallId := if m.role = .tool then m.toolCallId else none
    toolCalls := if m.role = .assistant then m.toolCalls else []
    reasoning := if m.role = .assistant ∧ m.toolCalls ≠ [] then m.reasoning else none }

/-! ## Reading what was written -/

theorem roleOf_roleText (r : MsgRole) : roleOf (roleText r) = some r := by
  cases r <;> decide

theorem readToolCall_toolCallJson (tc : ToolCallSpec) : readToolCall (toolCallJson tc) = some tc := by
  simp [readToolCall, toolCallJson, get, asStr]

theorem mapM_inverse {α β γ : Type} {f : α → β} {g : β → Option γ} {k : α → γ} (h : ∀ a, g (f a) = some (k a))
    (as : List α) : as.mapM (g ∘ f) = some (as.map k) := by
  induction as with
  | nil => rfl
  | cons a as ih => simp [List.mapM_cons, h, ih]

theorem readMessage_messageJson (m : Message) : readMessage (messageJson m) = some (sent m) := by
  obtain ⟨role, content, toolCallId, toolCalls, reasoning⟩ := m
  have hcalls : toolCalls.mapM (readToolCall ∘ toolCallJson) = some toolCalls := by
    simpa using mapM_inverse (k := id) readToolCall_toolCallJson toolCalls
  cases role with
  | tool =>
    cases toolCallId <;>
      simp [readMessage, messageJson, member, get, asStr, readContent, readText, readToolCalls, roleOf_roleText, sent]
  | assistant =>
    by_cases hnone : toolCalls = []
    · simp [readMessage, messageJson, get, asStr, readContent, readText, readToolCalls, roleOf_roleText, sent, hnone]
    · by_cases hempty : content = "" <;> cases reasoning <;>
        simp [readMessage, messageJson, member, get, asStr, readContent, readText, readToolCalls, roleOf_roleText, sent,
          hempty, hnone, hcalls]
  | system =>
    simp [readMessage, messageJson, get, asStr, readContent, readText, readToolCalls, roleOf_roleText, sent]
  | user =>
    simp [readMessage, messageJson, get, asStr, readContent, readText, readToolCalls, roleOf_roleText, sent]

theorem readTool_toolJson (t : ToolSpec) : readTool (toolJson t) = some t := by
  simp [readTool, toolJson, get, asStr]

theorem asU64_ofNat (n : UInt32) : asU64 (.num (Json.Number.ofNat n.toNat)) = some n.toNat := by
  have hlt : n.toNat < 2 ^ 32 := n.toNat_lt
  have hint : (Json.Number.ofNat n.toNat).toInt? = some (n.toNat : Int) := Json.Number.toInt?_ofInt (n.toNat : Int)
  rw [asU64, hint, Option.bind_some, if_pos (by omega), Int.toNat_natCast]

/-- The messages of a request as the provider has them. -/
def ModelRequest.wire (req : ModelRequest) : List Message :=
  (req.system.map (Message.plain .system)).toList ++ req.messages.map sent

theorem mapM_messages (req : ModelRequest) :
    ((req.system.map systemJson).toList ++ req.messages.map messageJson).mapM readMessage = some req.wire := by
  have hsystem (sys : String) : readMessage (systemJson sys) = some (.plain .system sys) := by
    simp [readMessage, systemJson, get, asStr, readContent, readText, readToolCalls, roleOf_roleText, Message.plain]
  have hmessages := mapM_inverse readMessage_messageJson req.messages
  unfold ModelRequest.wire
  cases req.system with
  | none => simpa using hmessages
  | some sys => simp [List.mapM_cons, hsystem, hmessages]

theorem isLimitField_limit {p : OpenAiProvider} {req : ModelRequest} {l : String × UInt32}
    (h : limit p req = some l) : IsLimitField l.1 := by
  obtain ⟨mt, -, rfl⟩ := Option.map_eq_some_iff.1 h
  cases hfield : p.maxTokensField with
  | some field => exact p.known field hfield
  | none =>
    simp only [Option.getD_none, maxTokensField]
    split
    · exact .inl rfl
    · split
      · exact .inl rfl
      · exact .inr rfl

theorem get_append (key : String) (xs ys : List (String × Json)) :
    get key (.obj (xs ++ ys)) = (get key (.obj ys)).or (get key (.obj xs)) := by
  simp only [get, List.reverse_append, List.find?_append, Option.map_or]

theorem get_cons (key : String) (x : String × Json) (xs : List (String × Json)) :
    get key (.obj (x :: xs)) = (get key (.obj xs)).or (if x.1 = key then some x.2 else none) := by
  rw [← List.singleton_append, get_append]
  by_cases hx : x.1 = key <;> simp [get, hx]

theorem get_nil (key : String) : get key (.obj []) = none := rfl

theorem get_member (key k : String) (v : Option Json) :
    get key (.obj (member k v)) = if k = key then v else none := by
  cases v <;> simp [member, get_cons, get_nil]

theorem get_limit (key : String) (l : Option (String × UInt32)) :
    (get key (.obj (l.map fun l => (l.1, Json.num (Json.Number.ofNat l.2.toNat))).toList)).bind asU64 =
      (l.filter (·.1 = key)).map (·.2.toNat) := by
  cases l with
  | none => rfl
  | some l => by_cases hkey : l.1 = key <;> simp [get_cons, get_nil, hkey, asU64_ofNat, Option.filter]

/-- The provider has the request: the model and the tools as they are, the messages as they are sent, and the limit
under one name. -/
theorem readRequest_body (p : OpenAiProvider) (req : ModelRequest) :
    readRequest (body p req) = some
      { model := req.model, messages := req.wire, tools := req.tools
        maxCompletionTokens := ((limit p req).filter (·.1 = "max_completion_tokens")).map (·.2.toNat)
        maxTokens := ((limit p req).filter (·.1 = "max_tokens")).map (·.2.toNat)
        temperature := req.temperature } := by
  have htools : req.tools.mapM (readTool ∘ toolJson) = some req.tools := by
    simpa using mapM_inverse (k := id) readTool_toolJson req.tools
  have hlimit (key : String) (hkey : ¬ IsLimitField key) :
      get key (.obj ((limit p req).map fun l => (l.1, Json.num (Json.Number.ofNat l.2.toNat))).toList) = none := by
    cases hl : limit p req with
    | none => rfl
    | some l =>
      have hne : l.1 ≠ key := fun h => hkey (h ▸ isLimitField_limit hl)
      simp [get_cons, get_nil, hne]
  have hmembers (key : String) : get key (body p req) =
      ((get key (.obj (if req.tools = [] then [] else
          [("tool_choice", .str "auto"), ("tools", .arr (req.tools.map toolJson))]))).or
        (if "temperature" = key then req.temperature else none)).or
      ((get key (.obj [("messages", .arr ((req.system.map systemJson).toList ++ req.messages.map messageJson)),
        ("model", .str req.model), ("stream", .bool true),
        ("stream_options", .obj [("include_usage", .bool true)])])).or
      (get key (.obj ((limit p req).map fun l => (l.1, Json.num (Json.Number.ofNat l.2.toNat))).toList))) := by
    rw [body, get_append, get_append, get_append, get_member, Option.or_assoc]
  have hno (key : String) (h : key ≠ "tool_choice") (h' : key ≠ "tools") : get key (.obj (if req.tools = [] then [] else
      [("tool_choice", .str "auto"), ("tools", .arr (req.tools.map toolJson))])) = none := by
    split
    · rfl
    · simp [get_cons, get_nil, Ne.symm h, Ne.symm h']
  have hmodel : get "model" (body p req) = some (.str req.model) := by
    simp [hmembers, hno, get_cons, get_nil]
  have hmsgs : get "messages" (body p req) =
      some (.arr ((req.system.map systemJson).toList ++ req.messages.map messageJson)) := by
    simp [hmembers, hno, get_cons, get_nil]
  have htemperature : get "temperature" (body p req) = req.temperature := by
    simp [hmembers, hno, get_cons, get_nil, hlimit "temperature" (by decide)]
  have hcount (key : String) (hkey : IsLimitField key) :
      (get key (body p req)).bind asU64 = ((limit p req).filter (·.1 = key)).map (·.2.toNat) := by
    rw [← get_limit]
    rcases hkey with rfl | rfl <;> simp [hmembers, hno, get_cons, get_nil]
  have hspecs : readTools (get "tools" (body p req)) = some req.tools := by
    rw [hmembers]
    by_cases hnone : req.tools = []
    · simp [hnone, get_cons, get_nil, hlimit "tools" (by decide), readTools]
    · simp [hnone, get_cons, get_nil, readTools, htools]
  simp only [readRequest, hmodel, hmsgs, hspecs, htemperature, hcount _ (.inl rfl), hcount _ (.inr rfl), Option.bind_some, asStr,
    mapM_messages, Option.map_some]

/-- What was sent is read: the provider parses the text of a request and has the request. -/
theorem request_received (p : OpenAiProvider) (req : ModelRequest) :
    (Json.parse (Json.render (body p req))).bind readRequest = some
      { model := req.model, messages := req.wire, tools := req.tools
        maxCompletionTokens := ((limit p req).filter (·.1 = "max_completion_tokens")).map (·.2.toNat)
        maxTokens := ((limit p req).filter (·.1 = "max_tokens")).map (·.2.toNat)
        temperature := req.temperature } := by
  rw [Json.parse_render, Option.bind_some, readRequest_body]

end OhMyClaw.OpenAi
