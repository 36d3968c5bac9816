import OhMyClaw.Lib.Serde
import OhMyClaw.Llm.Sse
import OhMyClaw.Llm.Types

/-!
# The chunks of a chat completion

`parseChunk` maps one chunk to the items it stands for: content, reasoning, a tool-call fragment,
then the usage, then the end.  `streamChat` feeds what the connection delivers through the SSE
buffer and the chunks through `parseChunk`; the payload `[DONE]` is one more end.  How a payload is
read as JSON is a parameter.

    streamChat_bytes       a connection that only delivers bytes: the items of its payloads in order
    toolCallOf_parseChunk  a chunk gives the fragment at the first position of `tool_calls`, no other
-/

namespace OhMyClaw.OpenAi

/-! ## Looking into a value -/

/-- The member of an object; of two with the same key the later one counts. -/
def get (key : String) : Json → Option Json
  | .obj members => (members.reverse.find? (·.1 = key)).map (·.2)
  | _ => none

/-- The item at the first position of an array. -/
def getFirst : Json → Option Json
  | .arr items => items.head?
  | _ => none

def asStr : Json → Option String
  | .str s => some s
  | _ => none

def asU64 : Json → Option Nat
  | .num n => n.toInt?.bind fun i => if 0 ≤ i ∧ i < 2 ^ 64 then some i.toNat else none
  | _ => none

/-! ## One chunk -/

/-- The part of a chunk that is about the answer. -/
def choice (v : Json) : Option Json := (get "choices" v).bind getFirst

def delta (v : Json) : Option Json := (choice v).bind (get "delta")

/-- A text member, if it is there and not empty. -/
def nonEmpty (key : String) (d : Json) : Option String :=
  ((get key d).bind asStr).filter fun t => t ≠ ""

/-- The index of a tool-call fragment; one that does not say belongs to the first call. -/
def index (tc : Json) : Nat := ((get "index" tc).bind asU64).getD 0

/-- The item a fragment stands for, whatever its index. -/
def fragment (tc : Json) : ToolCallDelta :=
  { callId := ((get "id" tc).bind asStr).getD ""
    name := ((get "function" tc).bind (get "name")).bind asStr
    argsChunk := (((get "function" tc).bind (get "arguments")).bind asStr).getD "" }

/-- The fragment a chunk is asked for: the one at the first position, if its index is 0. -/
def firstFragment (d : Json) : Option ToolCallDelta :=
  ((get "tool_calls" d).bind getFirst).bind fun tc => if index tc = 0 then some (fragment tc) else none

def finishReasonOf (reason : String) : FinishReason :=
  if reason = "tool_calls" then .toolUse else if reason = "length" then .length else .stop

def finishReason (v : Json) : Option FinishReason :=
  ((choice v).bind fun c => (get "finish_reason" c).bind asStr).map finishReasonOf

/-- A token count under either of its names, nought if it is missing or no count. -/
def count (key other : String) (u : Json) : Nat :=
  (((get key u).or (get other u)).bind asU64).getD 0

/-- The usage, cut to 32 bits; what comes out as nought twice is no usage. -/
def parseUsage (v : Json) : Option Usage :=
  (get "usage" v).bind fun u =>
    match u with
    | .null => none
    | u =>
      let input := count "prompt_tokens" "input_tokens" u % 2 ^ 32
      let output := count "completion_tokens" "output_tokens" u % 2 ^ 32
      if input = 0 ∧ output = 0 then none else some { inputTokens := input, outputTokens := output }

/-- What the delta of a chunk stands for. -/
def deltaItems (d : Json) : List Delta :=
  ((nonEmpty "content" d).map Delta.text).toList ++
    ((nonEmpty "reasoning_content" d).map Delta.reasoning).toList ++
      ((firstFragment d).map Delta.toolCall).toList

def parseChunk (v : Json) : List Delta :=
  (delta v).elim [] deltaItems ++ ((parseUsage v).map Delta.usage).toList ++
    ((finishReason v).map Delta.done).toList

/-! ## The stream -/

section Stream

variable (readJson : List Char → Option Json)

def parsePayload (payload : List Char) : List Delta := (readJson payload).elim [] parseChunk

def doneMarker : List Char := "[DONE]".toList

/-- The items of the payloads one push hands out, and whether the stream has ended. -/
def payloadItems : List (List Char) → List Delta × Bool
  | [] => ([], false)
  | payload :: payloads =>
    if payload = doneMarker then ([.done .stop], true)
    else
      let r := payloadItems payloads
      (parsePayload readJson payload ++ r.1, r.2)

/-- What the loop finds next: the token set, bytes of the body, or a connection that failed. -/
inductive Poll where
  | cancelled
  | bytes (b : List UInt8)
  | failed (msg : String)
deriving DecidableEq, Repr

inductive StreamErr where
  | cancelled
  | transient (msg : String)
deriving DecidableEq, Repr

/-- The loop of the stream; it ends with the body. -/
def streamChat : SseBuffer → List Poll → List (Except StreamErr Delta)
  | _, [] => []
  | _, .cancelled :: _ => [.error .cancelled]
  | _, .failed msg :: _ => [.error (.transient msg)]
  | sse, .bytes b :: polls =>
    let pushed := sse.push b
    let r := payloadItems readJson pushed.2
    r.1.map .ok ++ if r.2 then [] else streamChat pushed.1 polls

variable {readJson}

theorem payloadItems_append (ps qs : List (List Char)) :
    payloadItems readJson (ps ++ qs) =
      if (payloadItems readJson ps).2 then payloadItems readJson ps
      else ((payloadItems readJson ps).1 ++ (payloadItems readJson qs).1, (payloadItems readJson qs).2) := by
  induction ps with
  | nil => rfl
  | cons p ps ih =>
    simp only [List.cons_append, payloadItems]
    by_cases hp : p = doneMarker
    · simp only [hp, if_true]
    · simp only [hp, if_false, ih]
      by_cases hended : (payloadItems readJson ps).2 = true
      · simp only [hended, if_true]
      · simp only [hended, if_false, List.append_assoc, Bool.false_eq_true]

theorem streamChat_bytes (sse : SseBuffer) (chunks : List (List UInt8)) :
    streamChat readJson sse (chunks.map .bytes) = (payloadItems readJson (sse.pushes chunks)).1.map .ok := by
  induction chunks generalizing sse with
  | nil => rfl
  | cons b chunks ih =>
    simp only [List.map_cons, streamChat, SseBuffer.pushes, payloadItems_append, ih]
    by_cases hended : (payloadItems readJson (sse.push b).2).2 = true
    · simp only [hended, if_true, List.append_nil]
    · simp only [hended, if_false, List.map_append, Bool.false_eq_true]

end Stream

/-! ## Items by their kind -/

def toolCallOf : Delta → Option ToolCallDelta
  | .toolCall tc => some tc
  | _ => none

def usageOf : Delta → Option Usage
  | .usage u => some u
  | _ => none

def isDone : Delta → Bool
  | .done _ => true
  | _ => false

theorem toolCallOf_parseChunk (v : Json) :
    (parseChunk v).filterMap toolCallOf = ((delta v).bind firstFragment).toList := by
  have htext (key : String) (d : Json) :
      ((nonEmpty key d).map Delta.text).toList.filterMap toolCallOf = [] ∧
        ((nonEmpty key d).map Delta.reasoning).toList.filterMap toolCallOf = [] := by
    cases nonEmpty key d <;> exact ⟨rfl, rfl⟩
  have hrest : ((parseUsage v).map Delta.usage).toList.filterMap toolCallOf = [] ∧
      ((finishReason v).map Delta.done).toList.filterMap toolCallOf = [] := by
    constructor
    · cases parseUsage v <;> rfl
    · cases finishReason v <;> rfl
  simp only [parseChunk, List.filterMap_append, hrest.1, hrest.2, List.append_nil]
  cases delta v with
  | none => rfl
  | some d =>
    simp only [Option.elim_some, deltaItems, List.filterMap_append, (htext _ d).1, (htext _ d).2,
      List.nil_append, Option.bind_some]
    cases firstFragment d <;> rfl

theorem usageOf_parseChunk (v : Json) :
    (parseChunk v).filterMap usageOf = (parseUsage v).toList := by
  have hdelta : ((delta v).elim [] deltaItems).filterMap usageOf = [] := by
    cases delta v with
    | none => rfl
    | some d =>
      simp only [Option.elim_some, deltaItems, List.filterMap_append]
      cases nonEmpty "content" d <;> cases nonEmpty "reasoning_content" d <;>
        cases firstFragment d <;> rfl
  have hdone : ((finishReason v).map Delta.done).toList.filterMap usageOf = [] := by
    cases finishReason v <;> rfl
  simp only [parseChunk, List.filterMap_append, hdelta, hdone, List.append_nil, List.nil_append]
  cases parseUsage v <;> rfl

/-- The items before the end of a chunk. -/
def openItems (v : Json) : List Delta :=
  (delta v).elim [] deltaItems ++ ((parseUsage v).map Delta.usage).toList

theorem parseChunk_eq (v : Json) :
    parseChunk v = openItems v ++ ((finishReason v).map Delta.done).toList := rfl

theorem isDone_openItems (v : Json) : ∀ d ∈ openItems v, isDone d = false := by
  intro d hd
  simp only [openItems, List.mem_append, Option.mem_toList, Option.map_eq_some_iff] at hd
  rcases hd with hd | ⟨u, -, rfl⟩
  · cases hdelta : delta v with
    | none => simp [hdelta] at hd
    | some j =>
      simp only [hdelta, Option.elim_some, deltaItems, List.mem_append, Option.mem_toList,
        Option.map_eq_some_iff] at hd
      rcases hd with (⟨t, -, rfl⟩ | ⟨t, -, rfl⟩) | ⟨t, -, rfl⟩
      · rfl
      · rfl
      · rfl
  · rfl

/-! ## Chunk by chunk -/

/-- Where `f` gives no more than `g` for any chunk, the same in all is the same for each. -/
theorem eq_of_flatMap_eq {α β : Type*} {f g : α → List β} {l : List α}
    (hle : ∀ a ∈ l, (f a).length ≤ (g a).length) (h : l.flatMap f = l.flatMap g) : ∀ a ∈ l, f a = g a := by
  have htotal : ∀ l : List α, (∀ a ∈ l, (f a).length ≤ (g a).length) →
      (l.flatMap f).length ≤ (l.flatMap g).length := by
    intro l hle
    induction l with
    | nil => exact Nat.le_refl _
    | cons a l ih =>
      have hhead := hle a List.mem_cons_self
      have htail := ih fun b hb => hle b (List.mem_cons_of_mem _ hb)
      simp only [List.flatMap_cons, List.length_append]
      omega
  induction l with
  | nil => simp
  | cons a l ih =>
    have hhead := hle a List.mem_cons_self
    have htail := htotal l fun b hb => hle b (List.mem_cons_of_mem _ hb)
    have hlength := congrArg List.length h
    simp only [List.flatMap_cons, List.length_append] at h hlength
    obtain ⟨hfirst, hrest⟩ := List.append_inj h (by omega)
    intro b hb
    rcases List.mem_cons.1 hb with rfl | hb
    · exact hfirst
    · exact ih (fun b hb => hle b (List.mem_cons_of_mem _ hb)) hrest b hb

end OhMyClaw.OpenAi
