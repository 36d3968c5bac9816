import OhMyClaw.Lib.Json
import OhMyClaw.Lib.RustStr
import OhMyClaw.Http.Responses

/-!
# The text of the stream

An event is framed as `data: `, its JSON and an empty line; the events that one event of the run
gives rise to come as one text.  The route takes that text apart again and leaves the framing to
the server library.

    splitSseData_frames    taking apart gives what was framed
-/

namespace OhMyClaw.Responses

/-! ## JSON -/

def ResponseStatus.json : ResponseStatus → Json
  | .inProgress => .str "in_progress"
  | .completed => .str "completed"
  | .failed => .str "failed"
  | .cancelled => .str "cancelled"

def ResponseError.json (e : ResponseError) : Json :=
  .obj [("message", .str e.message), ("code", .str e.code)]

def contentPart (text : String) : Json :=
  .obj [("type", .str "output_text"), ("text", .str text), ("annotations", .arr [])]

def OutputItem.json (item : OutputItem) : Json :=
  .obj [("type", .str "message"), ("id", .str item.id), ("status", .str item.status),
    ("role", .str "assistant"), ("content", .arr (item.text.toList.map contentPart))]

def Usage.json (u : Usage) : Json :=
  .obj [("input_tokens", .num (.ofNat u.inputTokens)), ("output_tokens", .num (.ofNat u.outputTokens)),
    ("total_tokens", .num (.ofNat u.totalTokens))]

def Response.json (r : Response) : Json :=
  .obj ([("id", .str r.id), ("object", .str "response"), ("created_at", .num (.ofInt r.createdAt)),
      ("status", r.status.json)] ++
    r.completedAt.toList.map (fun t => ("completed_at", .num (.ofInt t))) ++
    r.error.toList.map (fun e => ("error", e.json)) ++
    [("output", .arr (r.output.map OutputItem.json)), ("usage", r.usage.json), ("model", .str r.model)])

/-- The place of the one text part of the one item. -/
def indices : List (String × Json) := [("output_index", .num (.ofNat 0)), ("content_index", .num (.ofNat 0))]

def sequenceNumber (seq : Nat) : String × Json := ("sequence_number", .num (.ofNat seq))

/-- The JSON of an event; `[DONE]` is none. -/
def SseEvent.json : SseEvent → Option Json
  | .responseCreated r seq =>
    some (.obj [("type", .str "response.created"), ("response", r.json), sequenceNumber seq])
  | .outputItemAdded id item seq =>
    some (.obj [("type", .str "response.output_item.added"), ("item_id", .str id),
      ("output_index", .num (.ofNat 0)), ("item", item.json), sequenceNumber seq])
  | .contentPartAdded id seq =>
    some (.obj ([("type", .str "response.content_part.added"), ("item_id", .str id)] ++ indices ++
      [("part", contentPart ""), sequenceNumber seq]))
  | .outputTextDelta id delta seq =>
    some (.obj ([("type", .str "response.output_text.delta"), ("item_id", .str id)] ++ indices ++
      [("delta", .str delta), sequenceNumber seq, ("logprobs", .arr [])]))
  | .outputTextDone id text seq =>
    some (.obj ([("type", .str "response.output_text.done"), ("item_id", .str id)] ++ indices ++
      [("text", .str text), sequenceNumber seq]))
  | .outputItemDone id item seq =>
    some (.obj [("type", .str "response.output_item.done"), ("item_id", .str id),
      ("output_index", .num (.ofNat 0)), ("item", item.json), sequenceNumber seq])
  | .responseCompleted r seq =>
    some (.obj [("type", .str "response.completed"), ("response", r.json), sequenceNumber seq])
  | .responseFailed id error seq =>
    some (.obj [("type", .str "response.failed"), ("response_id", .str id), ("error", error.json),
      sequenceNumber seq])
  | .streamDone => none

/-- What stands behind `data: `. -/
def SseEvent.payload (e : SseEvent) : List Char :=
  match e.json with
  | some j => Json.render j
  | none => "[DONE]".toList

/-! ## Frames -/

def formatEvent (e : SseEvent) : List Char := "data: ".toList ++ e.payload ++ "\n\n".toList

/-- The events that are written for `e`. -/
def written (ctx : RespCtx) (s : SseState) (e : WireEvent) : List SseEvent :=
  (eventToSse ctx s e).1.out.drop s.out.length

/-- The text they come as. -/
def payloadOf (ctx : RespCtx) (s : SseState) (e : WireEvent) : List Char :=
  (written ctx s e).flatMap formatEvent

/-- Pull the data values out of a framed text; other lines are dropped. -/
def splitSseData (payload : List Char) : List (List Char) :=
  (RustStr.lines payload).filterMap fun line => RustStr.stripPrefix line "data: ".toList

theorem ne_break_of_printable {c : Char} (h : 0x20 ≤ c.toNat) : c ≠ '\n' ∧ c ≠ '\r' := by
  constructor
  · rintro rfl
    exact absurd h (by decide)
  · rintro rfl
    exact absurd h (by decide)

theorem payload_printable (e : SseEvent) : ∀ c ∈ e.payload, 0x20 ≤ c.toNat := by
  have hdone : "[DONE]".toList.all (0x20 ≤ ·.toNat) = true := by decide
  intro c hc
  unfold SseEvent.payload at hc
  cases hjson : e.json with
  | some j =>
    rw [hjson] at hc
    exact Json.render_printable hc
  | none =>
    rw [hjson] at hc
    exact of_decide_eq_true (List.all_eq_true.1 hdone c hc)

theorem splitSseData_cons (e : SseEvent) (rest : List Char) :
    splitSseData (formatEvent e ++ rest) = e.payload :: splitSseData rest := by
  have hfield : "data: ".toList.all (0x20 ≤ ·.toNat) = true := by decide
  have hline : ∀ c ∈ "data: ".toList ++ e.payload, c ≠ '\n' ∧ c ≠ '\r' := by
    intro c hc
    rcases List.mem_append.1 hc with hc | hc
    · exact ne_break_of_printable (of_decide_eq_true (List.all_eq_true.1 hfield c hc))
    · exact ne_break_of_printable (payload_printable e c hc)
  have hblank : RustStr.lines ('\n' :: rest) = [] :: RustStr.lines rest :=
    RustStr.lines_cons (l := []) (by simp) rest
  have hframe : formatEvent e ++ rest = ("data: ".toList ++ e.payload) ++ '\n' :: '\n' :: rest := by
    have hfeeds : "\n\n".toList ++ rest = '\n' :: '\n' :: rest := rfl
    unfold formatEvent
    rw [List.append_assoc, hfeeds]
  have hlines : RustStr.lines (formatEvent e ++ rest) =
      ("data: ".toList ++ e.payload) :: [] :: RustStr.lines rest := by
    rw [hframe, RustStr.lines_cons hline, hblank]
  have hdata : RustStr.stripPrefix ("data: ".toList ++ e.payload) "data: ".toList = some e.payload := by
    simp [RustStr.stripPrefix, RustStr.startsWith]
  have hempty : RustStr.stripPrefix [] "data: ".toList = none := rfl
  simp only [splitSseData, hlines, List.filterMap_cons, hdata, hempty]

/-- Taking apart what was framed gives the data values back, however many there are. -/
theorem splitSseData_frames (es : List SseEvent) :
    splitSseData (es.flatMap formatEvent) = es.map SseEvent.payload := by
  induction es with
  | nil => rfl
  | cons e es ih => rw [List.flatMap_cons, splitSseData_cons, ih, List.map_cons]

end OhMyClaw.Responses
