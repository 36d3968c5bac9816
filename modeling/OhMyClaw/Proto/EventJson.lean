import OhMyClaw.Lib.Json
import OhMyClaw.Proto.Frame

/-!
# Events as JSON

An event is an object that names its kind in its first member, `event`; a phase within it does the
same in `phase`.

    mem_render_json    what the text of an event holds beyond ASCII
-/

namespace OhMyClaw

def RunErrorKind.json : RunErrorKind → Json
  | .aborted => .str "aborted"
  | .failed => .str "failed"
  | .panicked => .str "panicked"
  | .loopDetected => .str "loop_detected"
  | .timeout => .str "timeout"
  | .truncated => .str "truncated"

def LifecyclePhase.json : LifecyclePhase → Json
  | .start => .obj [("phase", .str "start")]
  | .end => .obj [("phase", .str "end")]
  | .error message kind => .obj [("phase", .str "error"), ("message", .str message), ("kind", kind.json)]

def ToolStatus.json : ToolStatus → Json
  | .ok => .str "ok"
  | .error => .str "error"
  | .aborted => .str "aborted"
  | .backgrounded => .str "backgrounded"

def ToolPhase.json : ToolPhase → Json
  | .start name args => .obj [("phase", .str "start"), ("name", .str name), ("args", .str args)]
  | .update chunk => .obj [("phase", .str "update"), ("chunk", .str chunk)]
  | .end status => .obj [("phase", .str "end"), ("status", status.json)]

def Event.json : Event → Json
  | .lifecycle session runId phase =>
    .obj [("event", .str "lifecycle"), ("session", .str session), ("run_id", .str runId),
      ("phase", phase.json)]
  | .assistant session runId delta =>
    .obj [("event", .str "assistant"), ("session", .str session), ("run_id", .str runId),
      ("delta", .str delta)]
  | .reasoning session runId delta =>
    .obj [("event", .str "reasoning"), ("session", .str session), ("run_id", .str runId),
      ("delta", .str delta)]
  | .tool session runId callId phase =>
    .obj [("event", .str "tool"), ("session", .str session), ("run_id", .str runId),
      ("call_id", .str callId), ("phase", phase.json)]
  | .approval session approvalId runId summary command =>
    .obj [("event", .str "approval"), ("session", .str session), ("approval_id", .str approvalId),
      ("run_id", .str runId), ("summary", .str summary), ("command", .str command)]
  | .userInput session inputId runId prompt =>
    .obj [("event", .str "user_input"), ("session", .str session), ("input_id", .str inputId),
      ("run_id", .str runId), ("prompt", .str prompt)]

/-- What the source's serialiser makes of an event that goes to a run's client. The other two kinds
never do. -/
def WireEvent.json : WireEvent → Option Json
  | .inline e => some e.json
  | .usage session inputTokens contextWindow =>
    some (.obj [("event", .str "usage"), ("session", .str session),
      ("input_tokens", .num (.ofNat inputTokens)), ("context_window", .num (.ofNat contextWindow))])
  | .proactive _ => none
  | .task _ => none

/-! ## The strings of an event -/

def LifecyclePhase.strings : LifecyclePhase → List String
  | .error message _ => [message]
  | _ => []

def ToolPhase.strings : ToolPhase → List String
  | .start name args => [name, args]
  | .update chunk => [chunk]
  | .end _ => []

def Event.strings : Event → List String
  | .lifecycle session runId phase => session :: runId :: phase.strings
  | .assistant session runId delta => [session, runId, delta]
  | .reasoning session runId delta => [session, runId, delta]
  | .tool session runId callId phase => session :: runId :: callId :: phase.strings
  | .approval session approvalId runId summary command => [session, approvalId, runId, summary, command]
  | .userInput session inputId runId prompt => [session, inputId, runId, prompt]

def notAscii (s : String) : Bool := s.toList.any (0x80 ≤ ·.toNat)

/-- The strings in the JSON of an event are its own, and names of keys and kinds. -/
theorem filter_strings_json (e : Event) :
    (Json.strings e.json).filter notAscii = e.strings.filter notAscii := by
  cases e with
  | lifecycle session runId phase =>
    cases phase with
    | error message kind =>
      cases kind <;>
        simp +decide [Event.json, LifecyclePhase.json, RunErrorKind.json, Json.strings_obj,
          Json.strings_str, Event.strings, LifecyclePhase.strings, List.filter_cons]
    | _ =>
      simp +decide [Event.json, LifecyclePhase.json, Json.strings_obj, Json.strings_str, Event.strings,
        LifecyclePhase.strings, List.filter_cons]
  | tool session runId callId phase =>
    cases phase with
    | «end» status =>
      cases status <;>
        simp +decide [Event.json, ToolPhase.json, ToolStatus.json, Json.strings_obj, Json.strings_str,
          Event.strings, ToolPhase.strings, List.filter_cons]
    | _ =>
      simp +decide [Event.json, ToolPhase.json, Json.strings_obj, Json.strings_str, Event.strings,
        ToolPhase.strings, List.filter_cons]
  | _ => simp +decide [Event.json, Json.strings_obj, Json.strings_str, Event.strings, List.filter_cons]

/-- Beyond ASCII, the text of an event holds what its strings hold. -/
theorem mem_render_json {e : Event} {c : Char} (h : 0x80 ≤ c.toNat) :
    c ∈ Json.render e.json ↔ ∃ s ∈ e.strings, c ∈ s.toList := by
  have hfilter (ss : List String) :
      (∃ s ∈ ss, c ∈ s.toList) ↔ ∃ s ∈ ss.filter notAscii, c ∈ s.toList := by
    constructor
    · rintro ⟨s, hs, hc⟩
      refine ⟨s, List.mem_filter.2 ⟨hs, ?_⟩, hc⟩
      exact List.any_eq_true.2 ⟨c, hc, decide_eq_true h⟩
    · rintro ⟨s, hs, hc⟩
      exact ⟨s, (List.mem_filter.1 hs).1, hc⟩
  rw [Json.mem_render_of_not_ascii h, hfilter, filter_strings_json, ← hfilter]

end OhMyClaw
