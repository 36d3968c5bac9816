import OhMyClaw.Http.Base64
import OhMyClaw.Http.Chat
import OhMyClaw.Lib.RustStr

/-!
# From a request to the text of a turn

A request is a list of items of several kinds, and a turn takes one text.  System texts, files and tool results
are put ahead of the current message, each kind in the order of its items.  The latest user message or tool result
is meant to be the current message; the loop keeps the last user message, also when a tool result comes behind it.

    collected     what one pass over the items leaves
    sent_iff      when nothing is sent again
-/

namespace OhMyClaw

namespace Adapter

/-! ## The request -/

inductive InputPart where
  | inputText (text : String)
deriving DecidableEq, Repr

inductive InputContent where
  | text (s : String)
  | parts (parts : List InputPart)
deriving DecidableEq, Repr

inductive FileSource where
  | base64 (mediaType data : String) (filename : Option String)
  | url (url : String) (filename : Option String)
deriving DecidableEq, Repr

inductive InputItem where
  | message (role : String) (content : InputContent)
  | functionCallOutput (callId output : String)
  | inputFile (source : FileSource)
deriving DecidableEq, Repr

inductive Input where
  | text (s : String)
  | items (items : List InputItem)
deriving DecidableEq, Repr

/-- What of a request the text of the turn depends on. -/
structure CreateResponseReq where
  input : Input
  instructions : Option String
deriving DecidableEq, Repr

structure ExternalFile where
  id : String
  content : String
  filename : Option String
deriving DecidableEq, Repr

structure ToolOutput where
  callId : String
  output : String
deriving DecidableEq, Repr

structure ExtractedInput where
  text : String
  systemAdditions : List String
  externalFiles : List ExternalFile
  toolOutputs : List ToolOutput
deriving DecidableEq, Repr

/-! ## The parts of an item -/

def flattenContent : InputContent → String
  | .text s => s
  | .parts parts => "\n".intercalate (parts.map fun | .inputText text => text)

def maxFileChars : Nat := 60000

def isTextMime (mime : String) : Bool :=
  mime = "text/plain" || mime = "text/markdown" || mime = "text/html" || mime = "text/csv" || mime = "application/json"

/-- The text of a file; a longer one is cut off. -/
def decodeFile : FileSource → Except HttpError (String × Option String)
  | .base64 mediaType data filename =>
    if ¬ isTextMime mediaType then
      .error (.badRequest ("unsupported file media_type: " ++ mediaType ++
        " (text/plain, text/markdown, text/html, text/csv, application/json supported)"))
    else
      match Base64Decode.base64Decode data.toList with
      | none => .error (.badRequest "invalid base64 in input_file")
      | some bytes =>
        match Utf8.fromUtf8 bytes with
        | none => .error (.badRequest "input_file is not valid UTF-8")
        | some text =>
          if maxFileChars < text.length then
            .ok (String.ofList (text.take maxFileChars) ++ "\n…[truncated]", filename)
          else .ok (String.ofList text, filename)
  | .url _ _ => .error (.badRequest "input_file with url source is not supported; send base64 instead")

/-! ## The loop over the items -/

/-- The last user message so far, and what has been collected. -/
abbrev Loop := Option String × ExtractedInput

/-- One item; `uuid n` is the identifier the file with the number `n` is given. -/
def extractItem (uuid : Nat → String) (st : Loop) : InputItem → Except HttpError Loop
  | .message role content =>
    let text := flattenContent content
    if role = "system" ∨ role = "developer" then
      if RustStr.trim text.toList = [] then .ok st
      else .ok (st.1, { st.2 with systemAdditions := st.2.systemAdditions ++ [text] })
    else if role = "user" then .ok (some text, st.2)
    -- What the assistant said before is in the transcript already.
    else .ok st
  | .functionCallOutput callId output =>
    .ok (st.1, { st.2 with toolOutputs := st.2.toolOutputs ++ [{ callId, output }] })
  | .inputFile source => do
    let (content, filename) ← decodeFile source
    let id := "file_" ++ uuid st.2.externalFiles.length
    .ok (st.1, { st.2 with externalFiles := st.2.externalFiles ++ [{ id, content, filename }] })

/-- The instructions, unless they are blank. -/
def instructionTexts (req : CreateResponseReq) : List String :=
  ((req.instructions.map fun inst => RustStr.trim inst.toList).filter (· ≠ [])).toList.map String.ofList

def extractInput (uuid : Nat → String) (req : CreateResponseReq) : Except HttpError ExtractedInput := do
  let out : ExtractedInput :=
    { text := "", systemAdditions := instructionTexts req, externalFiles := [], toolOutputs := [] }
  let out ← match req.input with
    | .text s => .ok { out with text := s }
    | .items items => do
      let (lastUserText, out) ← items.foldlM (extractItem uuid) (none, out)
      .ok { out with text := lastUserText.getD "" }
  if RustStr.trim out.text.toList = [] ∧ out.toolOutputs = [] then
    .error (.badRequest "input must contain a user message or function_call_output")
  else .ok out

/-! ## The text of the turn -/

def fileBlock (f : ExternalFile) : String :=
  "<<<EXTERNAL_UNTRUSTED_CONTENT id=\"" ++ f.id ++ "\">>>\nSource: External\nFilename: " ++
    f.filename.getD "unnamed" ++ "\n\n" ++ f.content ++
    "\n<<<END_EXTERNAL_UNTRUSTED_CONTENT id=\"" ++ f.id ++ "\">>>"

def toolBlock (t : ToolOutput) : String := "# Tool result (call_id: " ++ t.callId ++ ")\n" ++ t.output

/-- The sections ahead of the current message. -/
def sections (e : ExtractedInput) : List String :=
  (if e.systemAdditions = [] then []
    else ["# Instructions for this request\n" ++ "\n\n".intercalate e.systemAdditions]) ++
    e.externalFiles.map fileBlock ++ e.toolOutputs.map toolBlock

def buildTurnPrefix (e : ExtractedInput) : String :=
  if sections e = [] then "" else "\n\n".intercalate (sections e) ++ "\n\n"

/-- The text `create_response` sends. -/
def turnText (e : ExtractedInput) : String := buildTurnPrefix e ++ e.text

/-! ## What is to be sent -/

/-- A text for the system prompt. -/
def systemText : InputItem → Option String
  | .message role content =>
    let text := flattenContent content
    if (role = "system" ∨ role = "developer") ∧ RustStr.trim text.toList ≠ [] then some text else none
  | _ => none

def userText : InputItem → Option String
  | .message role content => if role = "user" then some (flattenContent content) else none
  | _ => none

def toolOutput : InputItem → Option ToolOutput
  | .functionCallOutput callId output => some { callId, output }
  | _ => none

/-- The text and the name of a file, where it can be read. -/
def fileText : InputItem → Option (String × Option String)
  | .inputFile source => (decodeFile source).toOption
  | _ => none

/-- What an item says that can be the current message; a tool result stands among the sections. -/
def turnItem (item : InputItem) : Option String := (userText item).or ((toolOutput item).map fun _ => "")

/-- The latest user message or tool result is the current message. -/
def currentMessage (items : List InputItem) : String := ((items.filterMap turnItem).getLast?).getD ""

/-- A request that is only a text is one user message. -/
def Input.list : Input → List InputItem
  | .text s => [.message "user" (.text s)]
  | .items xs => xs

/-- All of the request, each part once and each kind in the order of its items, and nothing else. -/
def toSend (uuid : Nat → String) (req : CreateResponseReq) : ExtractedInput where
  text := currentMessage req.input.list
  systemAdditions := instructionTexts req ++ req.input.list.filterMap systemText
  externalFiles := (req.input.list.filterMap fileText).mapIdx fun n f =>
    { id := "file_" ++ uuid n, content := f.1, filename := f.2 }
  toolOutputs := req.input.list.filterMap toolOutput

/-- The text is the sections of the request and its current message, with a blank line between any two, and every
file has been read. -/
structure Sent (uuid : Nat → String) (req : CreateResponseReq) (text : String) : Prop where
  blocks : text = "\n\n".intercalate (sections (toSend uuid req) ++ [currentMessage req.input.list])
  read : ∀ source, .inputFile source ∈ req.input.list → ∃ f, decodeFile source = .ok f

/-! ## The loop -/

section Loop

variable {uuid : Nat → String} {st st' : Loop} {items : List InputItem}

/-- What a pass over the items adds to what has been collected. -/
structure Collected (uuid : Nat → String) (items : List InputItem) (st st' : Loop) : Prop where
  text : st'.2.text = st.2.text
  lastUser : st'.1 = (items.filterMap userText).getLast?.or st.1
  system : st'.2.systemAdditions = st.2.systemAdditions ++ items.filterMap systemText
  files : st'.2.externalFiles = st.2.externalFiles ++ (items.filterMap fileText).mapIdx fun n f =>
    { id := "file_" ++ uuid (st.2.externalFiles.length + n), content := f.1, filename := f.2 }
  outputs : st'.2.toolOutputs = st.2.toolOutputs ++ items.filterMap toolOutput
  read : ∀ source, .inputFile source ∈ items → ∃ f, decodeFile source = .ok f

theorem collected_item {item : InputItem} (h : extractItem uuid st item = .ok st') :
    Collected uuid [item] st st' := by
  cases item with
  | message role content =>
    simp only [extractItem] at h
    by_cases hsystem : role = "system" ∨ role = "developer"
    · have huser : role ≠ "user" := by rcases hsystem with rfl | rfl <;> decide
      rw [if_pos hsystem] at h
      by_cases hblank : RustStr.trim (flattenContent content).toList = []
      · rw [if_pos hblank] at h
        obtain rfl := Except.ok.inj h
        constructor <;> simp [systemText, userText, fileText, toolOutput, huser, hblank]
      · rw [if_neg hblank] at h
        obtain rfl := Except.ok.inj h
        constructor <;> simp [systemText, userText, fileText, toolOutput, huser, hblank, hsystem]
    · rw [if_neg hsystem] at h
      by_cases huser : role = "user"
      · rw [if_pos huser] at h
        obtain rfl := Except.ok.inj h
        constructor <;> simp [systemText, userText, fileText, toolOutput, huser]
      · rw [if_neg huser] at h
        obtain rfl := Except.ok.inj h
        constructor <;> simp [systemText, userText, fileText, toolOutput, huser, hsystem]
  | functionCallOutput callId output =>
    obtain rfl := Except.ok.inj h
    constructor <;> simp [systemText, userText, fileText, toolOutput]
  | inputFile source =>
    cases hread : decodeFile source with
    | error e => simp [extractItem, hread, bind, Except.bind] at h
    | ok f =>
      simp only [extractItem, hread, bind, Except.bind] at h
      obtain rfl := Except.ok.inj h
      constructor
      case read =>
        intro source' hsource
        rw [InputItem.inputFile.inj (List.mem_singleton.1 hsource)]
        exact ⟨f, hread⟩
      all_goals simp [systemText, userText, fileText, toolOutput, hread, Except.toOption]

theorem collected_append {items' : List InputItem} {mid : Loop} (h : Collected uuid items st mid)
    (h' : Collected uuid items' mid st') : Collected uuid (items ++ items') st st' where
  text := h'.text.trans h.text
  lastUser := by rw [h'.lastUser, h.lastUser, List.filterMap_append, List.getLast?_append, Option.or_assoc]
  system := by rw [h'.system, h.system, List.filterMap_append, List.append_assoc]
  files := by
    rw [h'.files, h.files, List.filterMap_append, List.mapIdx_append, List.append_assoc]
    simp only [List.length_append, List.length_mapIdx]
    congr 4
    funext n f
    rw [Nat.add_comm n, Nat.add_assoc]
  outputs := by rw [h'.outputs, h.outputs, List.filterMap_append, List.append_assoc]
  read source hsource := (List.mem_append.1 hsource).elim (h.read source) (h'.read source)

/-- A pass over the items collects each of them. -/
theorem collected (h : items.foldlM (extractItem uuid) st = .ok st') : Collected uuid items st st' := by
  induction items generalizing st with
  | nil =>
    obtain rfl := Except.ok.inj h
    constructor <;> simp
  | cons item items ih =>
    rw [List.foldlM_cons] at h
    cases hitem : extractItem uuid st item with
    | error e =>
      rw [hitem] at h
      cases h
    | ok mid =>
      rw [hitem] at h
      exact collected_append (collected_item hitem) (ih h)

end Loop

/-- The text of the last user message. -/
def lastUserText (items : List InputItem) : String := ((items.filterMap userText).getLast?).getD ""

/-- What is extracted is what is to be sent, but for the message that is taken for the current one. -/
theorem extractInput_eq {uuid : Nat → String} {req : CreateResponseReq} {e : ExtractedInput}
    (h : extractInput uuid req = .ok e) :
    e = { toSend uuid req with text := lastUserText req.input.list } ∧
      ∀ source, .inputFile source ∈ req.input.list → ∃ f, decodeFile source = .ok f := by
  unfold extractInput at h
  cases hinput : req.input with
  | text s =>
    simp only [hinput, bind, Except.bind] at h
    split at h
    · cases h
    · obtain rfl := Except.ok.inj h
      constructor
      · simp [toSend, hinput, Input.list, systemText, fileText, toolOutput, lastUserText, userText, flattenContent]
      · intro source hsource
        cases List.mem_singleton.1 hsource
  | items items =>
    simp only [hinput, bind, Except.bind] at h
    split at h
    · cases h
    · next st hloop =>
      have hcollected := collected hloop
      split at h
      · cases h
      · obtain rfl := Except.ok.inj h
        refine ⟨?_, hcollected.read⟩
        simp [toSend, hinput, Input.list, lastUserText, hcollected.lastUser, hcollected.system, hcollected.files,
          hcollected.outputs]

/-! ## The text -/

theorem turnText_eq (e : ExtractedInput) : turnText e = "\n\n".intercalate (sections e ++ [e.text]) := by
  unfold turnText buildTurnPrefix
  by_cases hnone : sections e = []
  · rw [if_pos hnone, hnone, List.nil_append, String.intercalate_singleton, String.empty_append]
  · rw [if_neg hnone, String.intercalate_append_of_ne_nil hnone (List.cons_ne_nil _ _), String.intercalate_singleton]

/-! ## The current message -/

section Current

variable {post : List InputItem}

theorem userText_eq_none (hpost : ∀ content, .message "user" content ∉ post) : ∀ item ∈ post, userText item = none := by
  intro item hitem
  cases item with
  | message role content =>
    by_cases hrole : role = "user"
    · subst hrole
      exact absurd hitem (hpost content)
    · exact if_neg hrole
  | functionCallOutput callId output => rfl
  | inputFile source => rfl

theorem lastUserText_none (hpost : ∀ content, .message "user" content ∉ post) : lastUserText post = "" := by
  rw [lastUserText, List.filterMap_eq_nil_iff.2 (userText_eq_none hpost)]
  rfl

theorem lastUserText_append (pre : List InputItem) (content : InputContent)
    (hpost : ∀ content, .message "user" content ∉ post) :
    lastUserText (pre ++ .message "user" content :: post) = flattenContent content := by
  have hnone : post.filterMap userText = [] := List.filterMap_eq_nil_iff.2 (userText_eq_none hpost)
  simp [lastUserText, List.filterMap_append, hnone, userText]

theorem turnItem_eq (hpost : ∀ content, .message "user" content ∉ post) :
    ∀ item ∈ post, turnItem item = (toolOutput item).map fun _ => "" := by
  intro item hitem
  rw [turnItem, userText_eq_none hpost item hitem, Option.none_or]

/-- Without a user message, all that can be the current message is a tool result. -/
theorem eq_empty_of_mem_turnItems (hpost : ∀ content, .message "user" content ∉ post) {text : String}
    (htext : text ∈ post.filterMap turnItem) : text = "" := by
  obtain ⟨item, hitem, hturn⟩ := List.mem_filterMap.1 htext
  rw [turnItem_eq hpost item hitem] at hturn
  obtain ⟨_, -, rfl⟩ := Option.map_eq_some_iff.1 hturn
  rfl

theorem currentMessage_none (hpost : ∀ content, .message "user" content ∉ post) : currentMessage post = "" := by
  unfold currentMessage
  cases hlast : (post.filterMap turnItem).getLast? with
  | none => rfl
  | some text => exact eq_empty_of_mem_turnItems hpost (List.mem_of_getLast? hlast)

/-- A tool result behind the last user message is the current message. -/
theorem currentMessage_output (pre : List InputItem) (hpost : ∀ content, .message "user" content ∉ post)
    (houtput : ∃ callId output, .functionCallOutput callId output ∈ post) : currentMessage (pre ++ post) = "" := by
  obtain ⟨callId, output, hitem⟩ := houtput
  have hmem : "" ∈ post.filterMap turnItem := List.mem_filterMap.2 ⟨_, hitem, turnItem_eq hpost _ hitem⟩
  have hne := List.ne_nil_of_mem hmem
  rw [currentMessage, List.filterMap_append, List.getLast?_append, List.getLast?_eq_some_getLast hne, Option.some_or,
    Option.getD_some]
  exact eq_empty_of_mem_turnItems hpost (List.getLast_mem hne)

theorem currentMessage_user (pre : List InputItem) (content : InputContent)
    (hpost : ∀ content, .message "user" content ∉ post)
    (houtput : ¬ ∃ callId output, .functionCallOutput callId output ∈ post) :
    currentMessage (pre ++ .message "user" content :: post) = flattenContent content := by
  have hnone : post.filterMap turnItem = [] := by
    refine List.filterMap_eq_nil_iff.2 fun item hitem => ?_
    rw [turnItem_eq hpost item hitem]
    cases item with
    | functionCallOutput callId output => exact absurd ⟨callId, output, hitem⟩ houtput
    | message role content => rfl
    | inputFile source => rfl
  simp [currentMessage, List.filterMap_append, hnone, turnItem, userText]

/-- There is no user message, or a last one. -/
theorem exists_last_user (items : List InputItem) : (∀ content, .message "user" content ∉ items) ∨
    ∃ pre content post, items = pre ++ .message "user" content :: post ∧
      ∀ content, .message "user" content ∉ post := by
  induction items with
  | nil => exact .inl fun content => List.not_mem_nil
  | cons item items ih =>
    rcases ih with hnone | ⟨pre, content, post, rfl, hpost⟩
    · by_cases huser : ∃ content, item = .message "user" content
      · obtain ⟨content, rfl⟩ := huser
        exact .inr ⟨[], content, items, rfl, hnone⟩
      · refine .inl fun content hmem => ?_
        rcases List.mem_cons.1 hmem with heq | hmem
        · exact huser ⟨content, heq.symm⟩
        · exact hnone content hmem
    · exact .inr ⟨item :: pre, content, post, rfl, hpost⟩

end Current

/-- What is sent differs from what is to be sent in the message that is taken for the current one. -/
theorem sent_toSend {uuid : Nat → String} {req : CreateResponseReq} {text : String}
    (hread : ∀ source, .inputFile source ∈ req.input.list → ∃ f, decodeFile source = .ok f) :
    Sent uuid req (turnText { toSend uuid req with text }) ↔ text = currentMessage req.input.list := by
  have hblocks : turnText { toSend uuid req with text } =
      "\n\n".intercalate (sections (toSend uuid req) ++ [text]) := turnText_eq _
  constructor
  · intro h
    have heq := h.blocks
    rw [hblocks] at heq
    by_cases hnone : sections (toSend uuid req) = []
    · simpa [hnone] using heq
    · rw [String.intercalate_append_of_ne_nil hnone (List.cons_ne_nil _ _),
        String.intercalate_append_of_ne_nil hnone (List.cons_ne_nil _ _), String.intercalate_singleton,
        String.intercalate_singleton] at heq
      exact String.append_right_inj _ |>.1 heq
  · rintro rfl
    exact ⟨hblocks, hread⟩

/-- The text of a turn is what is to be sent exactly where no tool result stands behind the last user message, or
that message says nothing. -/
theorem sent_iff (uuid : Nat → String) (req : CreateResponseReq) (e : ExtractedInput)
    (h : extractInput uuid req = .ok e) :
    Sent uuid req (turnText e) ↔
      ∀ pre content post, req.input.list = pre ++ .message "user" content :: post →
        (∀ content', .message "user" content' ∉ post) →
          (∃ callId output, .functionCallOutput callId output ∈ post) → flattenContent content = "" := by
  obtain ⟨rfl, hread⟩ := extractInput_eq h
  rw [sent_toSend hread]
  constructor
  · intro heq pre content post hsplit hpost houtput
    rw [hsplit, lastUserText_append pre content hpost, List.append_cons, currentMessage_output _ hpost houtput] at heq
    exact heq
  · intro hcond
    rcases exists_last_user req.input.list with hnone | ⟨pre, content, post, hsplit, hpost⟩
    · rw [lastUserText_none hnone, currentMessage_none hnone]
    · have hempty := hcond pre content post hsplit hpost
      rw [hsplit, lastUserText_append pre content hpost]
      by_cases houtput : ∃ callId output, .functionCallOutput callId output ∈ post
      · rw [List.append_cons, currentMessage_output _ hpost houtput]
        exact hempty houtput
      · rw [currentMessage_user pre content hpost houtput]

def testRequest (items : List InputItem) : CreateResponseReq := { input := .items items, instructions := none }

theorem sent_iff_terse : Sent (fun _ => "") (testRequest [.message "system" (.text "be terse"), .message "user" (.text "hi")])
    "# Instructions for this request\nbe terse\n\nhi" := by
  have hextract : extractInput (fun _ => "")
      (testRequest [.message "system" (.text "be terse"), .message "user" (.text "hi")]) =
        .ok { text := "hi", systemAdditions := ["be terse"], externalFiles := [], toolOutputs := [] } := by
    decide +kernel
  refine (sent_iff (fun _ => "") _ _ hextract).2 fun pre content post hsplit hpost houtput => ?_
  obtain ⟨callId, output, hitem⟩ := houtput
  have hmem : .functionCallOutput callId output ∈ pre ++ .message "user" content :: post :=
    List.mem_append_right _ (List.mem_cons_of_mem _ hitem)
  rw [← hsplit] at hmem
  simp [testRequest, Input.list] at hmem

/-- The question is asked again behind the result of the tool. -/
theorem sent_fails : ¬ ∀ (uuid : Nat → String) (req : CreateResponseReq) (e : ExtractedInput),
    extractInput uuid req = .ok e → Sent uuid req (turnText e) := by
  intro h
  have hblocks := (h (fun _ => "") (testRequest [.message "user" (.text "Is it warm?"), .functionCallOutput "c1" "72"])
    { text := "Is it warm?", systemAdditions := [], externalFiles := [], toolOutputs := [⟨"c1", "72"⟩] }
    (by decide +kernel)).blocks
  revert hblocks
  decide +kernel

end Adapter

end OhMyClaw
