import OhMyClaw.Http.Delivery
import OhMyClaw.Lib.Js
import OhMyClaw.Proto.EventJson

/-!
# The web client's end of a stream

A native stream leaves the server as SSE frames; the web client decodes the chunks of the body,
cuts the growing buffer at blank lines, finds the fields of each frame by regular expressions
and hands the parsed data to the callback of its kind.
-/

namespace OhMyClaw

/-! ## The response -/

namespace Native

/-- What the body of a response consists of: the items, and the comments that keep the connection
alive while none comes. -/
inductive Part where
  | item (i : Item)
  | keepAlive
deriving DecidableEq, Repr

/-- A named event with one line of data. -/
def sseFrame (name data : List Char) : List Char :=
  "event: ".toList ++ name ++ "\ndata: ".toList ++ data

def acceptedJson (runId session : String) : Json :=
  .obj [("run_id", .str runId), ("session", .str session)]

/-- The frame of an item, without the blank line behind it.  A failure ends the body instead. -/
def Item.frame : Item → Option (List Char)
  | .accepted runId session => some (sseFrame "accepted".toList (Json.render (acceptedJson runId session)))
  | .event name data => data.json.map fun j => sseFrame name.toList (Json.render j)
  | .failed _ => none

def Part.frame : Part → Option (List Char)
  | .item i => i.frame
  | .keepAlive => some [':']

/-- The text of a body. -/
def responseText : List Part → List Char
  | [] => []
  | p :: ps =>
    match p.frame with
    | some frame => frame ++ '\n' :: '\n' :: responseText ps
    | none => responseText ps

def Part.items : List Part → List Item
  | [] => []
  | .item i :: ps => i :: items ps
  | .keepAlive :: ps => items ps

end Native

/-! ## Callbacks -/

namespace Web

/-- A callback and its argument.  `caught` is `onError` with the text of an exception. -/
inductive Call where
  | accepted (data : Json)
  | delta (text : Json)
  | reasoning (text : Json)
  | tool (event : Json)
  | approval (event : Json)
  | userInput (event : Json)
  | end
  | error (message : Json)
  | caught
deriving Repr

/-- What a frame leads to: the callbacks called, and whether the client returns. -/
abbrev Reaction := List Call × Bool

def Reaction.none : Reaction := ([], false)

/-- An exception ends up at the one handler around the loop. -/
def Reaction.thrown : Reaction := ([.caught], true)

/-- `data[key]`: of null an exception (`none`), of what has no such property undefined. -/
def property (key : String) : Json → Option (Option Json)
  | .null => Option.none
  | .obj members => some ((members.reverse.find? (·.1 = key)).map (·.2))
  | _ => some Option.none

/-- `v ?? text` -/
def orElse (v : Option Json) (text : String) : Json :=
  match v with
  | Option.none => .str text
  | some .null => .str text
  | some j => j

/-- `v?.[key]` -/
def chained (key : String) : Option Json → Option Json
  | Option.none => Option.none
  | some j => (property key j).join

/-- Read a property and go on. -/
def withProperty (key : String) (data : Json) (next : Option Json → Reaction) : Reaction :=
  match property key data with
  | some v => next v
  | Option.none => .thrown

/-- `v === text` -/
def isText (text : String) : Option Json → Bool
  | some (.str s) => s = text
  | _ => false

def onLifecycle (data : Json) : Reaction :=
  withProperty "phase" data fun phase =>
    if isText "end" (chained "phase" phase) then ([.end], true)
    else if isText "error" (chained "phase" phase) then
      ([.error (orElse (chained "message" phase) "run failed")], true)
    else .none

/-- The switch of `sendChat`. -/
def sendSwitch (event : Option String) (data : Json) : Reaction :=
  match event with
  | some "accepted" => withProperty "run_id" data fun _ => ([.accepted data], false)
  | some "assistant" => withProperty "delta" data fun v => ([.delta (orElse v "")], false)
  | some "reasoning" => withProperty "delta" data fun v => ([.reasoning (orElse v "")], false)
  | some "tool" => ([.tool data], false)
  | some "approval" => ([.approval data], false)
  | some "user_input" => ([.userInput data], false)
  | some "lifecycle" => onLifecycle data
  | _ => .none

/-- The switch of `resumeChat`. -/
def resumeSwitch (event : Option String) (data : Json) : Reaction :=
  match event with
  | some "assistant" => withProperty "delta" data fun v => ([.delta (orElse v "")], false)
  | some "reasoning" => withProperty "delta" data fun v => ([.reasoning (orElse v "")], false)
  | some "tool" => ([.tool data], false)
  | some "lifecycle" => onLifecycle data
  | _ => .none

/-! ## Reading a body -/

/-- The two calls of the client that read a native stream. -/
inductive Route where
  | send | resume
deriving DecidableEq, Repr

def Route.switch : Route → Option String → Json → Reaction
  | .send => sendSwitch
  | .resume => resumeSwitch

def onFrame (route : Route) (frame : List Char) : Reaction :=
  let eventLine := Js.fieldOf "event".toList frame
  match Js.fieldOf "data".toList frame with
  | Option.none => .none
  | some dataLine =>
    if dataLine = [] then .none
    else
      match Json.parse dataLine with
      | Option.none => .none
      | some data => route.switch (eventLine.map String.ofList) data

/-- The frames that have come together, up to one at which the client returns. -/
def onFrames (route : Route) : List (List Char) → Reaction
  | [] => .none
  | f :: fs =>
    let r := onFrame route f
    if r.2 then r else (r.1 ++ (onFrames route fs).1, (onFrames route fs).2)

structure Client where
  decoder : Js.TextDecoder
  buf : List Char
  calls : List Call
  returned : Bool

def Client.new : Client := { decoder := .new, buf := [], calls := [], returned := false }

/-- One turn of the loop: a chunk of the body has come. -/
def Client.read (route : Route) (c : Client) (chunk : List UInt8) : Client :=
  if c.returned then c
  else
    let decoded := c.decoder.decode chunk
    let frames := Js.frames (c.buf ++ decoded.2)
    let r := onFrames route frames.1
    { decoder := decoded.1, buf := frames.2, calls := c.calls ++ r.1, returned := r.2 }

/-- The body has ended, or broken off. -/
def Client.close (c : Client) (broken : Bool) : List Call :=
  if c.returned then c.calls
  else if broken then c.calls ++ [.caught]
  else c.calls ++ [.end]

/-- All callbacks for a body that comes in these chunks. -/
def Route.stream (route : Route) (chunks : List (List UInt8)) (broken : Bool) : List Call :=
  (chunks.foldl (Client.read route) .new).close broken

end Web

end OhMyClaw
