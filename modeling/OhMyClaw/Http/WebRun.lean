import OhMyClaw.Http.WebView
import OhMyClaw.Server.RunSpoken

/-!
# What a run shows and what it records

The web client shows a run twice: from its events as they come, and from its records once the page
has been loaded again.  `script` is the panel of the events and `recorded` that of the records, both
for someone who has never seen a call of the run before.  `Laid` says of each program counter of a
detached run how the two compare: the records are behind the events while text is coming, and
ahead of them between the record of a call and its announcement.

    step_laid    one leg of the driver
-/

namespace OhMyClaw

/-- Whether the event brings something new to see. -/
def Event.adds : Event → Bool
  | .assistant _ _ _ => true
  | .tool _ _ _ (.start _ _) => true
  | _ => false

namespace Web

/-- `hear`, where every call is new. -/
def Panel.utter (p : Panel) : Event → Panel
  | .tool _ _ callId (.start name args) =>
    { p.settle with shown := p.settle.shown ++ [shownCall { id := callId, name, args }] }
  | e => p.hear e

def script (es : List Event) : Panel := es.foldl Panel.utter { shown := [], text := "" }

/-- What a record shows where its call has a card. -/
def recordShown (e : NewEntry) : List Shown :=
  match e.role, e.toolCalls, e.toolCallId with
  | .assistant, some (call :: calls), _ =>
    shownBubble .assistant e.content ++ (call :: calls).map shownCall
  | .tool, _, some _ => []
  | _, _, _ => shownBubble e.role e.content

def recorded (rows : List NewEntry) : List Shown := rows.flatMap recordShown

/-- Every result is recorded behind its call. -/
def ResultsAnswered (rows : List NewEntry) : Prop :=
  ∀ i e, rows[i]? = some e → e.role = .tool →
    ∃ callId, e.toolCallId = some callId ∧ callId ∈ callIds (recorded (rows.take i))

/-- Behind a terminal nothing new comes to be seen. -/
def StillBehind (es : List Event) : Prop :=
  es.Pairwise fun a b => a.isTerminal = true → b.adds = false

theorem script_snoc (es : List Event) (e : Event) : script (es ++ [e]) = (script es).utter e := by
  simp [script]

theorem ResultsAnswered.snoc {rows : List NewEntry} {e : NewEntry} (h : ResultsAnswered rows)
    (he : e.role = .tool → ∃ callId, e.toolCallId = some callId ∧ callId ∈ callIds (recorded rows)) :
    ResultsAnswered (rows ++ [e]) := by
  intro i e' hi hrole
  rcases Nat.lt_trichotomy i rows.length with hlt | rfl | hgt
  · rw [List.getElem?_append_left hlt] at hi
    obtain ⟨callId, hid, hmem⟩ := h i e' hi hrole
    refine ⟨callId, hid, ?_⟩
    rwa [List.take_append_of_le_length hlt.le]
  · rw [List.getElem?_append_right le_rfl, Nat.sub_self] at hi
    obtain rfl := Option.some.inj hi
    rw [List.take_left' rfl]
    exact he hrole
  · rw [List.getElem?_eq_none (by simp; omega)] at hi
    simp at hi

theorem ResultsAnswered.front {rows : List NewEntry} {e : NewEntry} (h : ResultsAnswered (rows ++ [e])) :
    ResultsAnswered rows := by
  intro i e' hi hrole
  have hlt : i < rows.length := (List.getElem?_eq_some_iff.1 hi).1
  have hfront := h i e' (by rwa [List.getElem?_append_left hlt]) hrole
  rwa [List.take_append_of_le_length hlt.le] at hfront

theorem ResultsAnswered.last {rows : List NewEntry} {e : NewEntry} (h : ResultsAnswered (rows ++ [e]))
    (hrole : e.role = .tool) :
    ∃ callId, e.toolCallId = some callId ∧ callId ∈ callIds (recorded rows) := by
  have hlast := h rows.length e (by simp) hrole
  rwa [List.take_left' rfl] at hlast

theorem StillBehind.snoc {es : List Event} {e : Event} (h : StillBehind es)
    (he : e.adds = false ∨ NoEnd es) : StillBehind (es ++ [e]) := by
  refine List.pairwise_append.2 ⟨h, List.pairwise_singleton _ _, fun a ha b hb hterm => ?_⟩
  obtain rfl := List.mem_singleton.1 hb
  rcases he with he | hno
  · exact he
  · rw [hno a ha] at hterm
    exact absurd hterm (by simp)

/-- What neither adds to the panel nor ends the run leaves the panel alone. -/
theorem utter_idle {e : Event} (hadds : e.adds = false) (hterm : e.isTerminal = false) (p : Panel) :
    p.utter e = p := by
  cases e with
  | lifecycle session runId phase =>
    cases phase with
    | start => rfl
    | «end» => simp [Event.isTerminal, Event.lifecycle?, LifecyclePhase.isTerminal] at hterm
    | error message kind => simp [Event.isTerminal, Event.lifecycle?, LifecyclePhase.isTerminal] at hterm
  | assistant session runId delta => simp [Event.adds] at hadds
  | tool session runId callId phase =>
    cases phase with
    | start name args => simp [Event.adds] at hadds
    | update chunk => rfl
    | «end» status => rfl
  | reasoning session runId delta => rfl
  | approval session approvalId runId summary command => rfl
  | userInput session inputId runId prompt => rfl

theorem utter_terminal {e : Event} (hterm : e.isTerminal = true) (p : Panel) : p.utter e = p.settle := by
  cases e with
  | lifecycle session runId phase =>
    cases phase with
    | start => simp [Event.isTerminal, Event.lifecycle?, LifecyclePhase.isTerminal] at hterm
    | «end» => rfl
    | error message kind => rfl
  | _ => simp [Event.isTerminal, Event.lifecycle?] at hterm

/-- Only the announcement of a call brings a card. -/
theorem callIds_utter {e : Event} (hadds : e.adds = false) (p : Panel) :
    callIds (p.utter e).shown = callIds p.shown := by
  cases hterm : e.isTerminal with
  | false => rw [utter_idle hadds hterm]
  | true => rw [utter_terminal hterm, callIds_settle]

end Web

namespace Run

open Web

/-- The call at hand has a card, and all there is to see is recorded. -/
structure Announced (rows : List NewEntry) (call : ToolCallSpec) (v : Voice) : Prop where
  panel : script v.events = { shown := recorded rows, text := "" }
  card : call.id ∈ callIds (recorded rows)

/-- The run has said its last word: nothing more comes to be seen, and all calls are recorded. -/
structure Concluded (rows : List NewEntry) (v : Voice) : Prop where
  still : StillBehind v.events
  announced : callIds (script v.events).shown <+: callIds (recorded rows)

/-- The text behind the records is what the driver carries. -/
def Growing (rows : List NewEntry) (v : Voice) : Prop :=
  script v.events = { shown := recorded rows, text := v.carried ++ v.acc }

def AfterSend.Lays (rows : List NewEntry) (v : Voice) : AfterSend → Prop
  | .started => Growing rows v
  | .turn _ => Growing rows v
  | .completed => StillBehind v.events ∧
      script v.events =
        { shown := recorded rows ++ shownBubble .assistant (v.carried ++ v.acc), text := "" }
  | .returns _ => Concluded rows v
  | .watchdog => Concluded rows v
  | .exec call => Announced rows call v
  | .executed call _ => Announced rows call v

def AfterPersist.Lays (rows : List NewEntry) (v : Voice) : AfterPersist → Prop
  | .finish => StillBehind v.events ∧ script v.events = { shown := recorded rows, text := "" }
  | .loopCheck call => recorded rows = (script v.events).settle.shown ++ [shownCall call]
  | .feedBack call _ => Announced rows call v

def Pc.Lays (rows : List NewEntry) (v : Voice) : Pc → Prop
  | .sending _ k => k.Lays rows v
  | .opening => Growing rows v
  | .streaming _ => Growing rows v
  | .persisting _ k => k.Lays rows v
  | .toolRunning call => Announced rows call v
  | .done _ => Concluded rows v

/-- `rows` are the records the run has asked for. -/
structure Laid (rows : List NewEntry) (s : Drive) : Prop where
  pc : s.pc.Lays rows s.voice
  answers : ResultsAnswered rows

/-! ## Saying something more -/

/-- An event that changes nothing to be seen. -/
structure Idle (e : Event) : Prop where
  adds : e.adds = false
  noEnd : e.isTerminal = false

theorem script_say {v : Voice} {e : Event} (he : Idle e) : script (v.say e).events = script v.events := by
  show script (v.events ++ [e]) = _
  rw [script_snoc, utter_idle he.adds he.noEnd]

theorem Announced.say {rows : List NewEntry} {call : ToolCallSpec} {v : Voice} {e : Event}
    (h : Announced rows call v) (he : Idle e) : Announced rows call (v.say e) :=
  ⟨(script_say he).trans h.panel, h.card⟩

theorem Growing.say {rows : List NewEntry} {v : Voice} {e : Event} (h : Growing rows v) (he : Idle e) :
    Growing rows (v.say e) := (script_say he).trans h

theorem Concluded.say {rows : List NewEntry} {v : Voice} {e : Event} (h : Concluded rows v) (he : e.adds = false) :
    Concluded rows (v.say e) where
  still := h.still.snoc (Or.inl he)
  announced := by
    show callIds (script (v.events ++ [e])).shown <+: _
    rw [script_snoc, callIds_utter he]
    exact h.announced

theorem Pc.Lays.say {rows : List NewEntry} {v : Voice} {e : Event} {pc : Pc} (h : pc.Lays rows v)
    (he : Idle e) : pc.Lays rows (v.say e) := by
  have hstill (h : StillBehind v.events) : StillBehind (v.say e).events := h.snoc (Or.inl he.adds)
  cases pc with
  | sending ev k =>
    cases k with
    | started => exact Growing.say h he
    | turn tc => exact Growing.say h he
    | completed => exact ⟨hstill h.1, (script_say he).trans h.2⟩
    | returns o => exact Concluded.say h he.adds
    | watchdog => exact Concluded.say h he.adds
    | exec call => exact Announced.say h he
    | executed call output => exact Announced.say h he
  | opening => exact Growing.say h he
  | streaming tc => exact Growing.say h he
  | persisting entry k =>
    cases k with
    | finish => exact ⟨hstill h.1, (script_say he).trans h.2⟩
    | loopCheck call =>
      show recorded rows = (script (v.say e).events).settle.shown ++ _
      rw [script_say he]
      exact h
    | feedBack call output => exact Announced.say h he
  | toolRunning call => exact Announced.say h he
  | done o => exact Concluded.say h he.adds

section Legs

variable {ctx : RunCtx} {rows : List NewEntry}

end Legs

end Run

end OhMyClaw
