import OhMyClaw.Lib.RustStr
import OhMyClaw.Lib.Steps
import OhMyClaw.Proto.FrameWire
import OhMyClaw.Tui.Keys

/-!
# The terminal client

What the terminal client shows, and what it does with a key and with a frame of the daemon.  A request of the user's
(an approval, a question) takes the keyboard for itself: what is typed then is the answer to it.

    Screen.onKey       a key, and the request it makes
    Screen.onFrame     a frame
    tells_run          the bubbles of each run hold what was heard of it, in order, and nothing of another run
    in_turn            an answer goes to what was asked last, and each is answered once at most
-/

namespace OhMyClaw

namespace Tui

inductive Who where
  | user | assistant | system | tool | proactive | approval | question
deriving DecidableEq, Repr

/-- A line of the conversation. -/
structure Msg where
  who : Who
  text : String
deriving DecidableEq, Repr

/-- All of the client but its connection. -/
structure Screen extends App where
  msgs : List Msg
  input : List Char
  status : String
  connected : Bool
  shouldQuit : Bool
  /-- The run the last message of the assistant belongs to. -/
  lastAssistantRun : Option String
  usageHint : Option String
  /-- Lines above the bottom. -/
  scrollBack : Nat
  /-- When to say that a message has to wait, in milliseconds. -/
  pendingQueueHint : Option Nat
  reasoningTail : List Char
  showReasoning : Bool
deriving DecidableEq, Repr

/-! ## Keys -/

inductive KeyCode where
  | char (c : Char)
  | enter | esc | backspace | tab | pageUp | pageDown | home | end
  | other
deriving DecidableEq, Repr

structure Mods where
  control : Bool := false
  alt : Bool := false
  shift : Bool := false
  super : Bool := false
  hyper : Bool := false
  metaKey : Bool := false
deriving DecidableEq, Repr

def normalizeKey (code : KeyCode) (mods : Mods) : KeyCode :=
  if mods.control then
    match code with
    | .char 'h' | .char 'H' => .backspace
    | .char 'i' | .char 'I' => .tab
    | .char 'm' | .char 'M' => .enter
    | _ => code
  else code

def isTextChar (mods : Mods) : Bool :=
  !(mods.control || mods.alt || mods.super || mods.hyper || mods.metaKey)

def scrollPage : Nat := 10

def scrollMax : Nat := 65535

def queueHintDelay : Nat := 150

/-- A text goes on in the last message, if it may; otherwise it is a message of its own. -/
def tell (goesOn : Msg → Bool) (m : Msg) (msgs : List Msg) : List Msg :=
  match msgs.getLast? with
  | some last => if goesOn last then msgs.dropLast ++ [{ last with text := last.text ++ m.text }] else msgs ++ [m]
  | none => [m]

namespace Screen

def pushSys (s : Screen) (text : String) : Screen :=
  { s with msgs := s.msgs ++ [{ who := .system, text }] }

/-- Without anything to reply to, nothing happens. -/
def replyApproval (s : Screen) (allow : Bool) : Screen × Option (Req Method) :=
  match s.toApp.replyApproval allow with
  | some (app, req) =>
    ({ s with
        toApp := app
        msgs := s.msgs ++ [{ who := .system, text := if allow then "已批准" else "已拒绝" }]
        status := "已连接" }, some req)
  | none => (s, none)

def replyInput (s : Screen) (text : Option String) : Screen × Option (Req Method) :=
  match s.toApp.replyInput text with
  | some (app, req) =>
    ({ s with
        toApp := app
        msgs := s.msgs ++ [{ who := .user, text := text.getD "（已取消回答）" }]
        status := "已连接" }, some req)
  | none => (s, none)

/-- An approval is waited for: all but `y` and `n` is ignored. -/
def onApprovalKey (s : Screen) (code : KeyCode) (mods : Mods) : Screen × Option (Req Method) :=
  match code with
  | .char 'y' | .char 'Y' => if isTextChar mods then s.replyApproval true else (s, none)
  | .char 'n' | .char 'N' => if isTextChar mods then s.replyApproval false else (s, none)
  | _ => (s, none)

/-- An answer is waited for: an empty one is none. -/
def onAnswerKey (s : Screen) (code : KeyCode) (mods : Mods) : Screen × Option (Req Method) :=
  match code with
  | .enter =>
    let text := RustStr.trim s.input
    let r := s.replyInput (if text = [] then none else some (String.ofList text))
    ({ r.1 with input := [] }, r.2)
  | .esc =>
    let r := s.replyInput none
    ({ r.1 with input := [] }, r.2)
  | .backspace => ({ s with input := s.input.dropLast }, none)
  | .char c => (if isTextChar mods then { s with input := s.input ++ [c] } else s, none)
  | _ => (s, none)

/-- `Enter` outside of the two: a command goes to the daemon as it is, and so does a message. -/
def onEnter (s : Screen) (now : Nat) : Screen × Option (Req Method) :=
  let text := RustStr.trim s.input
  let r : Screen × Option (Req Method) :=
    if text = [] then (s, none)
    else if RustStr.startsWith text ['/'] then
      if s.connected then
        let (app, req) := s.toApp.sendCommand (String.ofList text)
        ({ s with toApp := app }, some req)
      else (s, none)
    else if s.connected then
      let (app, req) := s.toApp.sendChat (String.ofList text)
      ({ s with
          toApp := app
          msgs := s.msgs ++ [{ who := .user, text := String.ofList text }]
          pendingQueueHint := some (now + queueHintDelay) }, some req)
    else (s, none)
  ({ r.1 with scrollBack := 0, input := [] }, r.2)

def onPlainKey (s : Screen) (now : Nat) (code : KeyCode) (mods : Mods) : Screen × Option (Req Method) :=
  if code = .char 'c' ∧ mods.control then ({ s with shouldQuit := true }, none)
  else
    match code with
    | .enter => s.onEnter now
    | .backspace => ({ s with input := s.input.dropLast }, none)
    | .pageUp => ({ s with scrollBack := min (s.scrollBack + scrollPage) scrollMax }, none)
    | .pageDown => ({ s with scrollBack := s.scrollBack - scrollPage }, none)
    | .home => (if mods.control then { s with scrollBack := scrollMax } else s, none)
    | .end => (if mods.control then { s with scrollBack := 0 } else s, none)
    | .char c =>
      if c = 't' ∧ mods.control then
        ({ s with
            showReasoning := !s.showReasoning
            reasoningTail := if s.showReasoning then [] else s.reasoningTail }, none)
      else (if isTextChar mods then { s with input := s.input ++ [c] } else s, none)
    | _ => (s, none)

def onKey (s : Screen) (now : Nat) (code : KeyCode) (mods : Mods) : Screen × Option (Req Method) :=
  let code := normalizeKey code mods
  let quits := code = .char 'c' ∧ mods.control
  if s.pendingApproval.isSome ∧ ¬ quits then s.onApprovalKey code mods
  else if s.pendingInput.isSome ∧ ¬ quits then s.onAnswerKey code mods
  else s.onPlainKey now code mods

/-! ## Frames -/

/-- The effects on the view come first, then the output. -/
def onCommand (s : Screen) (result : Proto.CommandResult) : Screen :=
  let s := if result.clearView = some s.currentSession then { s with msgs := [] } else s
  let s :=
    match result.switchSession with
    | some id => { s with currentSession := id, lastAssistantRun := none }
    | none => s
  if result.text = "" then s.pushSys "（空）"
  else (RustStr.lines result.text.toList).foldl (fun s line => s.pushSys (String.ofList line)) s

def truncate (s : String) (max : Nat) : String :=
  if s.toList.length ≤ max then s else String.ofList (s.toList.take (max - 1) ++ ['…'])

def tailCap : Nat := 512

end Screen

/-- `event_session`. -/
def eventSession : Proto.Event → String
  | .lifecycle session _ _ | .assistant session _ _ | .reasoning session _ _ | .tool session _ _ _
  | .proactive session _ _ _ | .task session _ _ | .usage session _ _ | .approval session _ _ _ _
  | .userInput session _ _ _ => session

def isProactive : Proto.Event → Bool
  | .proactive .. => true
  | _ => false

/-- Events of other sessions are not shown, but for a reminder. -/
def Screen.shows (s : Screen) (ev : Proto.Event) : Bool :=
  eventSession ev = s.currentSession || isProactive ev

theorem shows_eq {s : Screen} {ev : Proto.Event} :
    s.shows ev = true ↔ (isProactive ev = false → eventSession ev = s.currentSession) := by
  cases hev : isProactive ev <;> simp [Screen.shows, hev]

namespace Screen

variable (formatUsage : UInt32 → UInt32 → String)

/-- An event that is shown. -/
def onShown (s : Screen) : Proto.Event → Screen
  | .lifecycle _ _ .start => { s with pendingQueueHint := none, status := "助手思考中…" }
  | .lifecycle _ _ .end => { s with pendingQueueHint := none, reasoningTail := [], status := "已连接" }
  | .lifecycle _ _ (.error message _) =>
    { s with pendingQueueHint := none, reasoningTail := [], status := "错误: " ++ message }
  | .assistant _ runId delta =>
    -- a text goes on only in a message of its own run: runs that have waited follow each other at once
    { s with
      reasoningTail := []
      lastAssistantRun := some runId
      msgs := tell (fun last => last.who = .assistant && s.lastAssistantRun = some runId)
        { who := .assistant, text := delta } s.msgs }
  | .proactive _ _ text _ =>
    if text = "" then s else { s with msgs := s.msgs ++ [{ who := .proactive, text }] }
  | .tool _ _ _ (.start name args) =>
    { s with
      reasoningTail := []
      msgs := s.msgs ++ [{ who := .tool, text := name ++ ": " ++ truncate args 200 }] }
  | .tool _ _ _ (.update chunk) =>
    { s with msgs := tell (fun last => last.who = .tool) { who := .tool, text := chunk } s.msgs }
  | .tool _ _ _ (.end _) => s
  | .approval _ approvalId _ summary command =>
    { s with
      msgs := s.msgs ++
        [{ who := .approval, text := summary ++ "\n  命令: " ++ command ++ "\n  批准执行？(y/n)" }]
      pendingApproval := some approvalId
      status := "等待审批：按 y 批准 / n 拒绝" }
  | .userInput _ inputId _ prompt =>
    { s with
      msgs := s.msgs ++ [{ who := .question, text := prompt ++ "\n  （输入回答后回车；Esc 取消）" }]
      pendingInput := some inputId
      status := "助手提问：输入回答后回车 / Esc 取消" }
  | .task _ _ _ => s
  | .usage _ inputTokens contextWindow => { s with usageHint := some (formatUsage inputTokens contextWindow) }
  | .reasoning _ _ delta =>
    if s.showReasoning then
      let tail := s.reasoningTail ++ delta.toList.map fun c => if c = '\r' ∨ c = '\n' then ' ' else c
      { s with reasoningTail := tail.drop (tail.length - tailCap) }
    else s

def onEvent (s : Screen) (ev : Proto.Event) : Screen :=
  if s.shows ev then s.onShown formatUsage ev else s

def onFrame (s : Screen) : Proto.Frame → Screen
  | .event ev => s.onEvent formatUsage ev
  | .res { result := .ok (.command result), .. } => s.onCommand result
  | .res { result := .err e, .. } =>
    let s := { s with pendingQueueHint := none, status := "错误: " ++ e.message }
    s.pushSys ("请求被拒: " ++ e.message)
  | .res { result := .ok _, .. } => s
  | .req _ => s

end Screen

/-- The connection is made, and this frame came first. -/
def Screen.connect (pid : Nat) (first : Option Proto.Frame) : Screen :=
  let s : Screen :=
    { toApp := (App.connect pid).1, msgs := [], input := [], status := "连接中…", connected := false
      shouldQuit := false, lastAssistantRun := none, usageHint := none, scrollBack := 0, pendingQueueHint := none
      reasoningTail := [], showReasoning := true }
  match first with
  | some (.res { result := .ok _, .. }) =>
    { s with connected := true, status := "已连接" }.pushSys
      "已连接到 oc daemon。输入消息回车发送，/help 看指令，Ctrl-T 开关思考显示，Ctrl-C 退出。"
  | some (.res { result := .err e, .. }) => { s with status := "连接被拒: " ++ e.message }
  | _ => s

/-! ## The event loop -/

structure Terminal where
  screen : Screen
  now : Nat
deriving DecidableEq, Repr

namespace Terminal

inductive Act where
  /-- A key is pressed; the request it makes is sent. -/
  | key (code : KeyCode) (mods : Mods)
  | frame (f : Proto.Frame)
  /-- The daemon has closed the connection. -/
  | closed
  /-- The queue hint is due. -/
  | hint
  /-- The screen is drawn, with so many lines above the bottom at most. -/
  | draw (maxOff : Nat)
  | wait (ms : Nat)
deriving DecidableEq, Repr

/-- Once the user has quit, nothing more happens. -/
def step (formatUsage : UInt32 → UInt32 → String) (t : Terminal) (a : Act) : Option Terminal :=
  if t.screen.shouldQuit then none
  else
    match a with
    | .key code mods => some { t with screen := (t.screen.onKey t.now code mods).1 }
    | .frame f => some { t with screen := t.screen.onFrame formatUsage f }
    | .closed => some { t with screen := { t.screen with status := "daemon 已断开", connected := false } }
    | .hint =>
      if t.screen.pendingQueueHint.any (· ≤ t.now) then
        some { t with screen := { t.screen with pendingQueueHint := none, status := "排队中…" } }
      else none
    | .draw maxOff => some { t with screen := { t.screen with scrollBack := min t.screen.scrollBack maxOff } }
    | .wait ms => some { t with now := t.now + ms }

end Terminal

/-! ## What a key does -/

/-- What no key changes. -/
structure Keeps (s s' : Screen) : Prop where
  session : s'.currentSession = s.currentSession
  run : s'.lastAssistantRun = s.lastAssistantRun

/-- What a key can do: nothing to the conversation, or one thing that is the turn of whoever asked last. -/
inductive KeyDoes (s s' : Screen) : Option (Req Method) → Prop where
  | nothing (hkeeps : Keeps s s') (hmsgs : s'.msgs = s.msgs) (happroval : s'.pendingApproval = s.pendingApproval)
      (hinput : s'.pendingInput = s.pendingInput) : KeyDoes s s' none
  | approves (id : String) (allow : Bool) (req : Req Method) (hid : s.pendingApproval = some id)
      (hkeeps : Keeps s s') (hreq : req.method = .approvalReply id allow) (m : Msg) (hm : m.who ≠ .assistant) (hmsgs : s'.msgs = s.msgs ++ [m])
      (happroval : s'.pendingApproval = none) (hinput : s'.pendingInput = s.pendingInput) : KeyDoes s s' (some req)
  | answers (id : String) (text : Option String) (req : Req Method) (hnone : s.pendingApproval = none)
      (hid : s.pendingInput = some id) (hkeeps : Keeps s s') (hreq : req.method = .userReply id text) (m : Msg) (hm : m.who ≠ .assistant)
      (hmsgs : s'.msgs = s.msgs ++ [m]) (happroval : s'.pendingApproval = none)
      (hinput : s'.pendingInput = none) : KeyDoes s s' (some req)
  | speaks (text : String) (req : Req Method) (hnone : s.pendingApproval = none) (hnone' : s.pendingInput = none)
      (hkeeps : Keeps s s') (hreq : req.method = .chatSend s.currentSession text ∨ req.method = .command s.currentSession text)
      (hmsgs : s'.msgs = s.msgs ∨ ∃ m : Msg, m.who ≠ .assistant ∧ s'.msgs = s.msgs ++ [m])
      (happroval : s'.pendingApproval = none) (hinput : s'.pendingInput = none) : KeyDoes s s' (some req)

theorem KeyDoes.keeps {s s' : Screen} {req : Option (Req Method)} (h : KeyDoes s s' req) : Keeps s s' := by
  cases h with
  | nothing hkeeps | approves _ _ _ _ hkeeps | answers _ _ _ _ _ hkeeps | speaks _ _ _ _ hkeeps => exact hkeeps

namespace Screen

variable {s : Screen}

theorem replyApproval_does {id : String} (h : s.pendingApproval = some id) (allow : Bool) :
    KeyDoes s (s.replyApproval allow).1 (s.replyApproval allow).2 := by
  simp only [replyApproval, App.replyApproval, h]
  exact .approves id allow _ h ⟨rfl, rfl⟩ rfl _ (by simp) rfl rfl rfl

theorem onApprovalKey_does {id : String} (h : s.pendingApproval = some id) (code : KeyCode) (mods : Mods) :
    KeyDoes s (s.onApprovalKey code mods).1 (s.onApprovalKey code mods).2 := by
  have hreply (allow : Bool) :
      KeyDoes s (if isTextChar mods then s.replyApproval allow else (s, none)).1
        (if isTextChar mods then s.replyApproval allow else (s, none)).2 := by
    split
    · exact replyApproval_does h allow
    · exact .nothing ⟨rfl, rfl⟩ rfl rfl rfl
  unfold onApprovalKey
  split
  · exact hreply true
  · exact hreply true
  · exact hreply false
  · exact hreply false
  · exact .nothing ⟨rfl, rfl⟩ rfl rfl rfl

theorem replyInput_does {id : String} (hnone : s.pendingApproval = none) (h : s.pendingInput = some id)
    (text : Option String) :
    KeyDoes s { (s.replyInput text).1 with input := [] } (s.replyInput text).2 := by
  simp only [replyInput, App.replyInput, h]
  exact .answers id text _ hnone h ⟨rfl, rfl⟩ rfl _ (by simp) rfl hnone rfl

theorem onAnswerKey_does {id : String} (hnone : s.pendingApproval = none) (h : s.pendingInput = some id)
    (code : KeyCode) (mods : Mods) : KeyDoes s (s.onAnswerKey code mods).1 (s.onAnswerKey code mods).2 := by
  unfold onAnswerKey
  split
  · exact replyInput_does hnone h _
  · exact replyInput_does hnone h _
  · exact .nothing ⟨rfl, rfl⟩ rfl rfl rfl
  · dsimp only
    split <;> exact .nothing ⟨rfl, rfl⟩ rfl rfl rfl
  · exact .nothing ⟨rfl, rfl⟩ rfl rfl rfl

theorem onEnter_does (hnone : s.pendingApproval = none) (hnone' : s.pendingInput = none) (now : Nat) :
    KeyDoes s (s.onEnter now).1 (s.onEnter now).2 := by
  unfold onEnter
  dsimp only
  split
  · exact .nothing ⟨rfl, rfl⟩ rfl rfl rfl
  · split
    · split
      · exact .speaks _ _ hnone hnone' ⟨rfl, rfl⟩ (.inr rfl) (.inl rfl) hnone hnone'
      · exact .nothing ⟨rfl, rfl⟩ rfl rfl rfl
    · split
      · exact .speaks _ _ hnone hnone' ⟨rfl, rfl⟩ (.inl rfl) (.inr ⟨_, by simp, rfl⟩) hnone hnone'
      · exact .nothing ⟨rfl, rfl⟩ rfl rfl rfl

theorem onPlainKey_does (now : Nat) (code : KeyCode) (mods : Mods)
    (h : (s.pendingApproval = none ∧ s.pendingInput = none) ∨ code = .char 'c' ∧ mods.control) :
    KeyDoes s (s.onPlainKey now code mods).1 (s.onPlainKey now code mods).2 := by
  unfold onPlainKey
  split
  · exact .nothing ⟨rfl, rfl⟩ rfl rfl rfl
  · next hquit =>
    obtain ⟨hnone, hnone'⟩ := h.resolve_right hquit
    split
    · exact onEnter_does hnone hnone' now
    · exact .nothing ⟨rfl, rfl⟩ rfl rfl rfl
    · exact .nothing ⟨rfl, rfl⟩ rfl rfl rfl
    · exact .nothing ⟨rfl, rfl⟩ rfl rfl rfl
    · dsimp only
      split <;> exact .nothing ⟨rfl, rfl⟩ rfl rfl rfl
    · dsimp only
      split <;> exact .nothing ⟨rfl, rfl⟩ rfl rfl rfl
    · split
      · exact .nothing ⟨rfl, rfl⟩ rfl rfl rfl
      · dsimp only
        split <;> exact .nothing ⟨rfl, rfl⟩ rfl rfl rfl
    · exact .nothing ⟨rfl, rfl⟩ rfl rfl rfl

theorem onKey_does (s : Screen) (now : Nat) (code : KeyCode) (mods : Mods) :
    KeyDoes s (s.onKey now code mods).1 (s.onKey now code mods).2 := by
  unfold onKey
  dsimp only
  split
  · next h =>
    obtain ⟨id, hid⟩ := Option.isSome_iff_exists.1 h.1
    exact onApprovalKey_does hid _ mods
  · next h =>
    split
    · next h' =>
      have hnone : s.pendingApproval = none := by
        rw [← Option.not_isSome_iff_eq_none]
        exact fun hsome => h ⟨hsome, h'.2⟩
      obtain ⟨id, hid⟩ := Option.isSome_iff_exists.1 h'.1
      exact onAnswerKey_does hnone hid _ mods
    · next h' =>
      refine onPlainKey_does now _ mods ?_
      by_cases hquit : normalizeKey code mods = .char 'c' ∧ mods.control
      · exact .inr hquit
      · refine .inl ⟨?_, ?_⟩
        · rw [← Option.not_isSome_iff_eq_none]
          exact fun hsome => h ⟨hsome, hquit⟩
        · rw [← Option.not_isSome_iff_eq_none]
          exact fun hsome => h' ⟨hsome, hquit⟩

end Screen

/-! ## What a run has said -/

/-- What the screen takes note of: a text of a run, or that it is to be empty. -/
inductive Heard where
  | said (run delta : String)
  | wiped
deriving DecidableEq, Repr

def heardOf (s : Screen) : Proto.Frame → List Heard
  | .event (.assistant session run delta) => if session = s.currentSession then [.said run delta] else []
  | .res { result := .ok (.command result), .. } => if result.clearView = some s.currentSession then [.wiped] else []
  | _ => []

/-- What a run has said since the screen was empty. -/
def told (run : String) (h : List Heard) : String :=
  h.foldl (fun t x => match x with
    | .wiped => ""
    | .said run' delta => if run' = run then t ++ delta else t) ""

theorem told_append (run : String) (h h' : List Heard) :
    told run (h ++ h') = h'.foldl (fun t x => match x with
      | .wiped => ""
      | .said run' delta => if run' = run then t ++ delta else t) (told run h) := by
  rw [told, List.foldl_append]
  rfl

/-- The text of the messages that belong to the run. -/
def runText (run : String) : List (Msg × Option String) → String
  | [] => ""
  | p :: ps => (if p.2 = some run then p.1.text else "") ++ runText run ps

theorem runText_append (run : String) (ps qs : List (Msg × Option String)) :
    runText run (ps ++ qs) = runText run ps ++ runText run qs := by
  induction ps with
  | nil => simp [runText]
  | cons p ps ih => simp [runText, ih, String.append_assoc]

/-- The messages of the screen with the runs they belong to: each of the assistant's to one, no other to any. -/
structure Tagged (s : Screen) (ps : List (Msg × Option String)) : Prop where
  msgs : ps.map (·.1) = s.msgs
  own : ∀ p ∈ ps, p.2.isSome = true ↔ p.1.who = .assistant
  last : ∀ p ∈ ps.getLast?, p.1.who = .assistant → s.lastAssistantRun = none ∨ s.lastAssistantRun = p.2

namespace Tagged

variable {s s' : Screen} {ps : List (Msg × Option String)}

theorem empty (h : s.msgs = []) : Tagged s [] where
  msgs := h.symm
  own _ hp := by cases hp
  last _ hp := by cases hp

theorem congr (h : Tagged s ps) (hmsgs : s'.msgs = s.msgs)
    (hrun : s'.lastAssistantRun = s.lastAssistantRun ∨ s'.lastAssistantRun = none) : Tagged s' ps where
  msgs := h.msgs.trans hmsgs.symm
  own := h.own
  last p hp hwho := by
    obtain hrun | hrun := hrun
    · rw [hrun]
      exact h.last p hp hwho
    · exact .inl hrun

/-- A message that is not the assistant's. -/
theorem push (h : Tagged s ps) {m : Msg} (hm : m.who ≠ .assistant) (hmsgs : s'.msgs = s.msgs ++ [m]) :
    Tagged s' (ps ++ [(m, none)]) where
  msgs := by simp [h.msgs, hmsgs]
  own p hp := by
    obtain hp | hp := List.mem_append.1 hp
    · exact h.own p hp
    · obtain rfl := List.mem_singleton.1 hp
      simp [hm]
  last p hp hwho := by
    obtain rfl : (m, none) = p := by simpa using hp
    exact absurd hwho hm

end Tagged

/-- What is told in a message of its own, or goes on in the last one. -/
theorem tell_cases (goesOn : Msg → Bool) (m : Msg) (msgs : List Msg) :
    tell goesOn m msgs = msgs ++ [m] ∨
      ∃ early last, msgs = early ++ [last] ∧ goesOn last ∧
        tell goesOn m msgs = early ++ [{ last with text := last.text ++ m.text }] := by
  cases msgs using List.reverseRec with
  | nil => exact .inl rfl
  | append_singleton early last =>
    by_cases h : goesOn last
    · exact .inr ⟨early, last, rfl, h, by simp [tell, h]⟩
    · exact .inl (by simp [tell, h])

/-- The bubbles of each run hold what it has said, and nothing else. -/
def Tells (s : Screen) (h : List Heard) : Prop :=
  ∃ ps, Tagged s ps ∧ ∀ run, runText run ps = told run h

namespace Tells

variable {s s' : Screen} {h : List Heard}

theorem congr (hs : Tells s h) (hmsgs : s'.msgs = s.msgs)
    (hrun : s'.lastAssistantRun = s.lastAssistantRun ∨ s'.lastAssistantRun = none) : Tells s' h := by
  obtain ⟨ps, hps, htold⟩ := hs
  exact ⟨ps, hps.congr hmsgs hrun, htold⟩

theorem push (hs : Tells s h) {m : Msg} (hm : m.who ≠ .assistant) (hmsgs : s'.msgs = s.msgs ++ [m]) : Tells s' h := by
  obtain ⟨ps, hps, htold⟩ := hs
  exact ⟨ps ++ [(m, none)], hps.push hm hmsgs, fun run => by simp [runText_append, runText, htold]⟩

theorem key (hs : Tells s h) {req : Option (Req Method)} (hdoes : KeyDoes s s' req) : Tells s' h := by
  cases hdoes with
  | nothing hkeeps hmsgs => exact hs.congr hmsgs (.inl hkeeps.run)
  | approves _ _ _ _ hkeeps _ m hm hmsgs => exact hs.push hm hmsgs
  | answers _ _ _ _ _ hkeeps _ m hm hmsgs => exact hs.push hm hmsgs
  | speaks _ _ _ _ hkeeps _ hmsgs =>
    obtain hmsgs | ⟨m, hm, hmsgs⟩ := hmsgs
    · exact hs.congr hmsgs (.inl hkeeps.run)
    · exact hs.push hm hmsgs

theorem wiped (hmsgs : s'.msgs = []) (h : List Heard) : Tells s' (h ++ [.wiped]) :=
  ⟨[], .empty hmsgs, fun run => by simp [told_append, runText]⟩

/-- A text goes on in the last message, if that is of no run or of its own; otherwise it is a new one. -/
theorem tell (hs : Tells s h) {goesOn : Msg → Bool} {m : Msg} {run : Option String}
    (hrun : run.isSome = true ↔ m.who = .assistant)
    (hgoesOn : ∀ last, goesOn last = true → last.who = m.who ∧ ∀ r ∈ run, s.lastAssistantRun = some r)
    (hmsgs : s'.msgs = Tui.tell goesOn m s.msgs)
    (hlast : s'.lastAssistantRun = run ∨ run = none ∧ s'.lastAssistantRun = s.lastAssistantRun) :
    Tells s' (h ++ run.toList.map fun r => .said r m.text) := by
  obtain ⟨ps, hps, htold⟩ := hs
  have htold' (r : String) : told r (h ++ run.toList.map fun r => .said r m.text) =
      runText r ps ++ if run = some r then m.text else "" := by
    rw [told_append, ← htold]
    cases run with
    | none => simp
    | some r' =>
      by_cases hr : r' = r <;> simp [hr]
  have hown : m.who = .assistant → s'.lastAssistantRun = none ∨ s'.lastAssistantRun = run := by
    intro hwho
    obtain hlast | ⟨hnone, -⟩ := hlast
    · exact .inr hlast
    · rw [hnone] at hrun
      exact absurd (hrun.2 hwho) (by simp)
  obtain htell | ⟨early, last, heq, hgoes, htell⟩ := tell_cases goesOn m s.msgs
  · refine ⟨ps ++ [(m, run)], ⟨by simp [hps.msgs, hmsgs, htell], fun p hp => ?_, fun p hp hwho => ?_⟩, fun r => ?_⟩
    · obtain hp | hp := List.mem_append.1 hp
      · exact hps.own p hp
      · obtain rfl := List.mem_singleton.1 hp
        exact hrun
    · obtain rfl : (m, run) = p := by simpa using hp
      exact hown hwho
    · rw [htold', runText_append]
      simp [runText]
  · obtain ⟨hwho, hsame⟩ := hgoesOn last hgoes
    obtain ⟨pe, pl, rfl, hearly, hpl⟩ := List.map_eq_append_iff.1 (hps.msgs.trans heq)
    obtain ⟨⟨m', tag⟩, rfl, hm'⟩ := List.map_eq_singleton_iff.1 hpl
    obtain rfl : m' = last := hm'
    -- the last message is of the same run
    have htag : tag = run := by
      have hisSome := (hps.own (m', tag) (by simp)).trans (by rw [hwho])
      cases run with
      | none => simpa using (hisSome.trans hrun.symm)
      | some r =>
        have hlastRun := hps.last (m', tag) (by simp) (hwho.trans (hrun.1 rfl))
        simpa [hsame r rfl, eq_comm] using hlastRun
    subst htag
    refine ⟨pe ++ [({ m' with text := m'.text ++ m.text }, tag)],
      ⟨by simp [hearly, hmsgs, htell], fun p hp => ?_, fun p hp hwho' => ?_⟩, fun r => ?_⟩
    · obtain hp | hp := List.mem_append.1 hp
      · exact hps.own p (by simp [hp])
      · obtain rfl := List.mem_singleton.1 hp
        exact hps.own (m', tag) (by simp)
    · obtain rfl : ({ m' with text := m'.text ++ m.text }, tag) = p := by simpa using hp
      exact hown (hwho ▸ hwho')
    · rw [htold', runText_append, runText_append, String.append_assoc]
      congr 1
      by_cases hr : tag = some r <;> simp [runText, hr]

theorem pushSys (hs : Tells s h) (text : String) : Tells (s.pushSys text) h :=
  hs.push (by simp) rfl

theorem onCommand (hs : Tells s h) (result : Proto.CommandResult) :
    Tells (s.onCommand result) (h ++ if result.clearView = some s.currentSession then [.wiped] else []) := by
  unfold Screen.onCommand
  have hcleared : Tells (if result.clearView = some s.currentSession then { s with msgs := [] } else s)
      (h ++ if result.clearView = some s.currentSession then [.wiped] else []) := by
    split
    · exact wiped rfl h
    · rwa [List.append_nil]
  generalize (if result.clearView = some s.currentSession then { s with msgs := [] } else s) = s₁ at hcleared
  have hswitched : Tells (match result.switchSession with
      | some id => { s₁ with toApp := { s₁.toApp with currentSession := id }, lastAssistantRun := none }
      | none => s₁) (h ++ if result.clearView = some s.currentSession then [.wiped] else []) := by
    split
    · exact hcleared.congr rfl (.inr rfl)
    · exact hcleared
  dsimp only
  split
  · exact hswitched.pushSys _
  · generalize RustStr.lines result.text.toList = lines
    revert hswitched
    generalize (match result.switchSession with
      | some id => { s₁ with toApp := { s₁.toApp with currentSession := id }, lastAssistantRun := none }
      | none => s₁) = s₂
    intro hs₂
    induction lines generalizing s₂ with
    | nil => exact hs₂
    | cons line lines ih => exact ih _ (hs₂.pushSys _)

variable (formatUsage : UInt32 → UInt32 → String)

/-- Nothing is heard. -/
theorem silent (hs : Tells s h) {hs' : List Heard} (hnone : hs' = []) : Tells s (h ++ hs') := by
  rwa [hnone, List.append_nil]

theorem onEvent (hs : Tells s h) (ev : Proto.Event) :
    Tells (s.onEvent formatUsage ev) (h ++ heardOf s (.event ev)) := by
  unfold Screen.onEvent
  split
  · next hshows =>
    cases ev with
    | lifecycle session run phase =>
      refine silent ?_ rfl
      cases phase <;> exact hs.congr rfl (.inl rfl)
    | assistant session run delta =>
      have hsession : session = s.currentSession := shows_eq.1 hshows rfl
      rw [heardOf, if_pos hsession]
      show Tells (s.onShown formatUsage (.assistant session run delta))
        (h ++ (some run).toList.map fun r => .said r delta)
      exact hs.tell (m := { who := .assistant, text := delta }) (by simp) (fun last hlast => by simpa using hlast) rfl
        (.inl rfl)
    | reasoning session run delta =>
      refine silent ?_ rfl
      rw [Screen.onShown]
      split
      · exact hs.congr rfl (.inl rfl)
      · exact hs
    | tool session run callId phase =>
      cases phase with
      | start name args => exact (hs.push (by simp) rfl).silent rfl
      | update chunk =>
        show Tells (s.onShown formatUsage (.tool session run callId (.update chunk)))
          (h ++ (none : Option String).toList.map fun r => .said r chunk)
        exact hs.tell (m := { who := .tool, text := chunk }) (by simp) (fun last hlast => by simpa using hlast) rfl
          (.inr ⟨rfl, rfl⟩)
      | «end» status => exact hs.silent rfl
    | proactive session kind text source =>
      refine silent ?_ rfl
      rw [Screen.onShown]
      split
      · exact hs
      · exact hs.push (by simp) rfl
    | task session taskId update => exact hs.silent rfl
    | usage session inputTokens contextWindow =>
      refine silent ?_ rfl
      exact hs.congr rfl (.inl rfl)
    | approval session id run summary command => exact (hs.push (by simp) rfl).silent rfl
    | userInput session id run prompt => exact (hs.push (by simp) rfl).silent rfl
  · next hshows =>
    refine hs.silent ?_
    cases ev with
    | assistant session run delta =>
      exact if_neg fun hsession => hshows (shows_eq.2 fun _ => hsession)
    | _ => rfl

theorem onFrame (hs : Tells s h) (f : Proto.Frame) : Tells (s.onFrame formatUsage f) (h ++ heardOf s f) := by
  cases f with
  | event ev => exact hs.onEvent formatUsage ev
  | req r => exact hs.silent rfl
  | res r =>
    obtain ⟨id, result⟩ := r
    cases result with
    | err e => exact (hs.push (by simp) rfl).silent rfl
    | ok value =>
      cases value with
      | command result => exact hs.onCommand result
      | _ => exact hs.silent rfl

end Tells

theorem tells_connect (pid : Nat) (first : Option Proto.Frame) : Tells (Screen.connect pid first) [] := by
  have hnew : Tells ⟨(App.connect pid).1, [], [], "连接中…", false, false, none, none, 0, none, [], true⟩ [] :=
    ⟨[], .empty rfl, fun _ => rfl⟩
  unfold Screen.connect
  dsimp only
  split
  · exact hnew.push (by simp) rfl
  · exact hnew.congr rfl (.inl rfl)
  · exact hnew

namespace Terminal

/-- The client after it has connected. -/
def start (pid now : Nat) (first : Option Proto.Frame) : Terminal := { screen := .connect pid first, now }

def heard (t : Terminal) (a : Act) (_ : Terminal) : List Heard :=
  match a with
  | .frame f => heardOf t.screen f
  | _ => []

variable {formatUsage : UInt32 → UInt32 → String}

theorem tells_step {h : List Heard} {t t' : Terminal} {a : Act} (ht : Tells t.screen h)
    (hstep : step formatUsage t a = some t') : Tells t'.screen (h ++ heard t a t') := by
  unfold step at hstep
  split at hstep
  · cases hstep
  · cases a with
    | key code mods =>
      obtain rfl := Option.some.inj hstep
      exact (ht.key (Screen.onKey_does t.screen t.now code mods)).silent rfl
    | frame f =>
      obtain rfl := Option.some.inj hstep
      exact ht.onFrame formatUsage f
    | hint =>
      simp only [Option.ite_none_right_eq_some, Option.some.injEq] at hstep
      obtain ⟨-, rfl⟩ := hstep
      refine .silent ?_ rfl
      exact ht.congr rfl (.inl rfl)
    | closed | draw _ | wait _ =>
      obtain rfl := Option.some.inj hstep
      refine .silent ?_ rfl
      exact ht.congr rfl (.inl rfl)

/-- The bubbles of each run hold what the screen has heard of it, in order, since it was last empty. -/
theorem tells_run {pid now : Nat} {first : Option Proto.Frame} {acts : List Act} {t : Terminal}
    (h : Steps.exec (step formatUsage) (start pid now first) acts = some t) :
    Tells t.screen (Steps.collect (step formatUsage) heard (start pid now first) acts) := by
  have hinvariant : ∀ (h : List Heard) (s : Terminal) (a : Act) (t : Terminal), Tells s.screen h →
      step formatUsage s a = some t → Tells t.screen (h ++ heard s a t) := fun h s a t hs => tells_step hs
  exact Steps.collect_invariant hinvariant (tells_connect pid first) h

end Terminal

/-! ## Whose turn it is -/

/-- What is asked of the user, and what the user has to say. -/
inductive Turn where
  | approvalAsked (id : String)
  | approvalReplied (id : String) (allow : Bool)
  | inputAsked (id : String)
  | inputReplied (id : String) (text : Option String)
  /-- A message or a command. -/
  | spoke (text : String)
deriving DecidableEq, Repr

/-- Something asked under an id, or the answer to it. -/
inductive Ask where
  | asked (id : String)
  | answered (id : String)
deriving DecidableEq, Repr

def Turn.approval? : Turn → Option Ask
  | .approvalAsked id => some (.asked id)
  | .approvalReplied id _ => some (.answered id)
  | _ => none

def Turn.input? : Turn → Option Ask
  | .inputAsked id => some (.asked id)
  | .inputReplied id _ => some (.answered id)
  | _ => none

/-- What holds of each entry and those before it, holds with one more. -/
theorem forall_split_snoc {α : Type} {P : List α → α → Prop} {l : List α} {x : α}
    (h : ∀ before y after, l = before ++ y :: after → P before y) (hx : P l x) :
    ∀ before y after, l ++ [x] = before ++ y :: after → P before y := by
  intro before y after heq
  cases after using List.reverseRec with
  | nil =>
    obtain ⟨rfl, hxy⟩ := List.append_inj' heq rfl
    obtain rfl : x = y := by simpa using hxy
    exact hx
  | append_singleton after z =>
    have heq' : l ++ [x] = (before ++ y :: after) ++ [z] := by simpa using heq
    exact h before y after (List.append_inj' heq' rfl).1

namespace Ask

def asked? : Ask → Option String
  | .asked id => some id
  | .answered _ => none

def answered? : Ask → Option String
  | .asked _ => none
  | .answered id => some id

/-- What was asked last, if it is not answered. -/
def pending (asks : List Ask) : Option String :=
  asks.getLast?.bind asked?

@[simp] theorem pending_nil : pending [] = none := rfl

@[simp] theorem pending_snoc (asks : List Ask) (x : Ask) : pending (asks ++ [x]) = x.asked? := by
  simp [pending]

/-- Each answer is to what was asked last. -/
def InOrder (asks : List Ask) : Prop :=
  ∀ before id after, asks = before ++ .answered id :: after → pending before = some id

theorem InOrder.snoc {asks : List Ask} (h : InOrder asks) {x : Ask}
    (hx : ∀ id, x = .answered id → pending asks = some id) : InOrder (asks ++ [x]) := by
  intro before id after heq
  have hsplit : ∀ before y after, asks = before ++ y :: after → ∀ id, y = .answered id → pending before = some id := by
    rintro before y after hasks id rfl
    exact h before id after hasks
  exact forall_split_snoc hsplit hx before _ after heq id rfl

/-- What was answered was asked, in the same order and as often. -/
theorem answered_sublist {asks : List Ask} (h : InOrder asks) :
    (asks.filterMap answered? ++ (pending asks).toList).Sublist (asks.filterMap asked?) := by
  induction asks using List.reverseRec with
  | nil => simp
  | append_singleton asks x ih =>
    have hbefore : InOrder asks := fun before id after heq => h before id (after ++ [x]) (by simp [heq])
    have hearly := ih hbefore
    rw [List.filterMap_append, List.filterMap_append, pending_snoc]
    cases x with
    | asked id =>
      have hanswered : [asked id].filterMap answered? = [] := rfl
      have hasked : [asked id].filterMap asked? = [id] := rfl
      rw [hanswered, hasked, List.append_nil]
      exact ((List.sublist_append_left _ _).trans hearly).append (List.Sublist.refl [id])
    | answered id =>
      have hlast : pending asks = some id := h asks id [] rfl
      have hanswered : [answered id].filterMap answered? = [id] := rfl
      have hasked : [answered id].filterMap asked? = [] := rfl
      rw [hanswered, hasked, List.append_nil]
      simpa [hlast, asked?] using hearly

end Ask

def openApproval (log : List Turn) : Option String := Ask.pending (log.filterMap Turn.approval?)

def openInput (log : List Turn) : Option String := Ask.pending (log.filterMap Turn.input?)

@[simp] theorem openApproval_snoc (log : List Turn) (x : Turn) :
    openApproval (log ++ [x]) = x.approval?.elim (openApproval log) Ask.asked? := by
  cases h : x.approval? <;> simp [openApproval, h]

@[simp] theorem openInput_snoc (log : List Turn) (x : Turn) :
    openInput (log ++ [x]) = x.input?.elim (openInput log) Ask.asked? := by
  cases h : x.input? <;> simp [openInput, h]

/-- An approval goes before a question, and both before what the user has to say. -/
def Turn.fits (before : List Turn) : Turn → Prop
  | .approvalReplied id _ => openApproval before = some id
  | .inputReplied id _ => openApproval before = none ∧ openInput before = some id
  | .spoke _ => openApproval before = none ∧ openInput before = none
  | .approvalAsked _ | .inputAsked _ => True

def InTurn (log : List Turn) : Prop :=
  ∀ before x after, log = before ++ x :: after → x.fits before

theorem InTurn.snoc {log : List Turn} (h : InTurn log) {x : Turn} (hx : x.fits log) : InTurn (log ++ [x]) :=
  forall_split_snoc h hx

/-- In a log that is in turn, the answers of one kind are in order. -/
theorem InTurn.inOrder {log : List Turn} (h : InTurn log) {part : Turn → Option Ask}
    (hpart : ∀ before x id, x.fits before → part x = some (.answered id) →
      Ask.pending (before.filterMap part) = some id) : Ask.InOrder (log.filterMap part) := by
  intro before id after heq
  obtain ⟨early, late, rfl, hearly, hlate⟩ := List.filterMap_eq_append_iff.1 heq
  obtain ⟨skipped, x, rest, rfl, hskipped, hx, -⟩ := List.filterMap_eq_cons_iff.1 hlate
  have hfits := h (early ++ skipped) x rest (by simp)
  have hpending := hpart _ x id hfits hx
  rwa [List.filterMap_append, List.filterMap_eq_nil_iff.2 hskipped, List.append_nil, hearly] at hpending

namespace Terminal

def requestTurn (req : Req Method) : List Turn :=
  match req.method with
  | .approvalReply id allow => [.approvalReplied id allow]
  | .userReply id text => [.inputReplied id text]
  | .chatSend _ text | .command _ text => [.spoke text]
  | .connect => []

def eventTurn : Proto.Event → List Turn
  | .approval _ id _ _ _ => [.approvalAsked id]
  | .userInput _ id _ _ => [.inputAsked id]
  | _ => []

def turns (t : Terminal) (a : Act) (_ : Terminal) : List Turn :=
  match a with
  | .key code mods => (t.screen.onKey t.now code mods).2.toList.flatMap requestTurn
  | .frame (.event ev) => if t.screen.shows ev then eventTurn ev else []
  | _ => []

/-- The screen waits for the answer to what is open. -/
structure Waits (log : List Turn) (s : Screen) : Prop where
  inTurn : InTurn log
  approval : s.pendingApproval = openApproval log
  input : s.pendingInput = openInput log

variable {formatUsage : UInt32 → UInt32 → String} {log : List Turn} {s s' : Screen}

theorem Waits.congr (h : Waits log s) (happroval : s'.pendingApproval = s.pendingApproval)
    (hinput : s'.pendingInput = s.pendingInput) {more : List Turn} (hmore : more = []) : Waits (log ++ more) s' := by
  subst hmore
  rw [List.append_nil]
  exact ⟨h.inTurn, happroval.trans h.approval, hinput.trans h.input⟩

theorem Waits.key (h : Waits log s) {req : Option (Req Method)} (hdoes : KeyDoes s s' req) :
    Waits (log ++ req.toList.flatMap requestTurn) s' := by
  cases hdoes with
  | nothing hkeeps hmsgs happroval hinput => exact h.congr happroval hinput rfl
  | approves id allow req hid hkeeps hreq m hm hmsgs happroval hinput =>
    have hturn : (some req).toList.flatMap requestTurn = [.approvalReplied id allow] := by simp [requestTurn, hreq]
    rw [hturn]
    refine ⟨h.inTurn.snoc (h.approval.symm.trans hid), ?_, ?_⟩
    · simp [Turn.approval?, Ask.asked?, happroval]
    · simp [Turn.input?, hinput, h.input]
  | answers id text req hnone hid hkeeps hreq m hm hmsgs happroval hinput =>
    have hturn : (some req).toList.flatMap requestTurn = [.inputReplied id text] := by simp [requestTurn, hreq]
    rw [hturn]
    refine ⟨h.inTurn.snoc ⟨h.approval.symm.trans hnone, h.input.symm.trans hid⟩, ?_, ?_⟩
    · simp [Turn.approval?, happroval, ← h.approval, hnone]
    · simp [Turn.input?, Ask.asked?, hinput]
  | speaks text req hnone hnone' hkeeps hreq hmsgs happroval hinput =>
    have hturn : (some req).toList.flatMap requestTurn = [.spoke text] := by
      obtain hreq | hreq := hreq <;> simp [requestTurn, hreq]
    rw [hturn]
    refine ⟨h.inTurn.snoc ⟨h.approval.symm.trans hnone, h.input.symm.trans hnone'⟩, ?_, ?_⟩
    · simp [Turn.approval?, happroval, ← h.approval, hnone]
    · simp [Turn.input?, hinput, ← h.input, hnone']

theorem pending_onCommand (s : Screen) (result : Proto.CommandResult) :
    (s.onCommand result).pendingApproval = s.pendingApproval ∧ (s.onCommand result).pendingInput = s.pendingInput := by
  have hlines (lines : List (List Char)) (s : Screen) :
      (lines.foldl (fun s line => s.pushSys (String.ofList line)) s).pendingApproval = s.pendingApproval ∧
        (lines.foldl (fun s line => s.pushSys (String.ofList line)) s).pendingInput = s.pendingInput := by
    induction lines generalizing s with
    | nil => exact ⟨rfl, rfl⟩
    | cons line lines ih => exact ih (s.pushSys (String.ofList line))
  unfold Screen.onCommand
  by_cases htext : result.text = ""
  · simp only [htext, if_true]
    split <;> split <;> exact ⟨rfl, rfl⟩
  · simp only [htext, if_false]
    split <;> split <;> exact hlines _ _

theorem Waits.event (h : Waits log s) (ev : Proto.Event) : Waits (log ++ eventTurn ev) (s.onShown formatUsage ev) := by
  cases ev with
  | approval session id run summary command =>
    rw [eventTurn]
    refine ⟨h.inTurn.snoc trivial, ?_, ?_⟩
    · simp [Turn.approval?, Ask.asked?, Screen.onShown]
    · simp [Turn.input?, Screen.onShown, h.input]
  | userInput session id run prompt =>
    rw [eventTurn]
    refine ⟨h.inTurn.snoc trivial, ?_, ?_⟩
    · simp [Turn.approval?, Screen.onShown, h.approval]
    · simp [Turn.input?, Ask.asked?, Screen.onShown]
  | lifecycle session run phase => cases phase <;> refine h.congr ?_ ?_ ?_ <;> rfl
  | tool session run callId phase => cases phase <;> refine h.congr ?_ ?_ ?_ <;> rfl
  | proactive session kind text source =>
    rw [Screen.onShown]
    split <;> refine h.congr ?_ ?_ ?_ <;> rfl
  | reasoning session run delta =>
    rw [Screen.onShown]
    split <;> refine h.congr ?_ ?_ ?_ <;> rfl
  | assistant _ _ _ | task _ _ _ | usage _ _ _ => refine h.congr ?_ ?_ ?_ <;> rfl

theorem waits_step {t t' : Terminal} {a : Act} (ht : Waits log t.screen) (hstep : step formatUsage t a = some t') :
    Waits (log ++ turns t a t') t'.screen := by
  unfold step at hstep
  split at hstep
  · cases hstep
  · cases a with
    | key code mods =>
      obtain rfl := Option.some.inj hstep
      exact ht.key (Screen.onKey_does t.screen t.now code mods)
    | frame f =>
      obtain rfl := Option.some.inj hstep
      cases f with
      | event ev =>
        by_cases hshows : t.screen.shows ev
        · have hevent : Waits _ (t.screen.onShown formatUsage ev) := ht.event ev
          simpa [turns, Screen.onFrame, Screen.onEvent, hshows] using hevent
        · simpa [turns, Screen.onFrame, Screen.onEvent, hshows] using ht
      | req r => refine ht.congr ?_ ?_ ?_ <;> rfl
      | res r =>
        obtain ⟨id, result⟩ := r
        cases result with
        | err e => refine ht.congr ?_ ?_ ?_ <;> rfl
        | ok value =>
          cases value with
          | command result =>
            obtain ⟨happroval, hinput⟩ := pending_onCommand t.screen result
            exact ht.congr happroval hinput rfl
          | _ => refine ht.congr ?_ ?_ ?_ <;> rfl
    | hint =>
      simp only [Option.ite_none_right_eq_some, Option.some.injEq] at hstep
      obtain ⟨-, rfl⟩ := hstep
      refine ht.congr ?_ ?_ ?_ <;> rfl
    | closed | draw _ | wait _ =>
      obtain rfl := Option.some.inj hstep
      refine ht.congr ?_ ?_ ?_ <;> rfl

theorem waits_connect (pid : Nat) (first : Option Proto.Frame) : Waits [] (Screen.connect pid first) := by
  have hnone : (Screen.connect pid first).pendingApproval = none ∧ (Screen.connect pid first).pendingInput = none := by
    unfold Screen.connect
    dsimp only
    split <;> exact ⟨rfl, rfl⟩
  exact ⟨fun before x after heq => by simp at heq, hnone.1, hnone.2⟩

/-- What was asked of the user and what the user has said. -/
def dialog (formatUsage : UInt32 → UInt32 → String) (t : Terminal) (acts : List Act) : List Turn :=
  Steps.collect (step formatUsage) turns t acts

theorem waits_run {pid now : Nat} {first : Option Proto.Frame} {acts : List Act} {t : Terminal}
    (h : Steps.exec (step formatUsage) (start pid now first) acts = some t) :
    Waits (dialog formatUsage (start pid now first) acts) t.screen := by
  have hinvariant : ∀ (log : List Turn) (s : Terminal) (a : Act) (t : Terminal), Waits log s.screen →
      step formatUsage s a = some t → Waits (log ++ turns s a t) t.screen := fun log s a t hs => waits_step hs
  exact Steps.collect_invariant hinvariant (waits_connect pid first) h

/-- Whatever keys and frames come, in whatever order: an approval or an answer goes to what was asked last and is
still open, an approval before an answer, and a message goes out only when nothing is open; so what was asked once
is answered once at most, in the order of the questions. -/
theorem in_turn {pid now : Nat} {first : Option Proto.Frame} {acts : List Act} {t : Terminal} {log : List Turn}
    (h : Steps.exec (step formatUsage) (start pid now first) acts = some t)
    (hlog : log = dialog formatUsage (start pid now first) acts) :
    (∀ before x after, log = before ++ x :: after → x.fits before) ∧
      t.screen.pendingApproval = openApproval log ∧ t.screen.pendingInput = openInput log ∧
      (((log.filterMap Turn.approval?).filterMap Ask.answered?) ++ (openApproval log).toList).Sublist
        ((log.filterMap Turn.approval?).filterMap Ask.asked?) ∧
      (((log.filterMap Turn.input?).filterMap Ask.answered?) ++ (openInput log).toList).Sublist
        ((log.filterMap Turn.input?).filterMap Ask.asked?) := by
  obtain ⟨hin, happroval, hinput⟩ := waits_run h
  rw [← hlog] at hin happroval hinput
  refine ⟨hin, happroval, hinput, Ask.answered_sublist (hin.inOrder ?_), Ask.answered_sublist (hin.inOrder ?_)⟩
  · intro before x id hfits hx
    cases x with
    | approvalReplied id' allow =>
      obtain rfl := Ask.answered.inj (Option.some.inj hx)
      exact hfits
    | _ => cases hx
  · intro before x id hfits hx
    cases x with
    | inputReplied id' text =>
      obtain rfl := Ask.answered.inj (Option.some.inj hx)
      exact hfits.2
    | _ => cases hx

/-- A second approval comes before the first is answered, and a question after it; then the user goes on. -/
def testActs : List Act :=
  [.frame (.event (.approval "main" "a1" "r1" "rm" "rm x")), .key (.char 'x') {},
    .frame (.event (.approval "main" "a2" "r1" "mv" "mv x y")), .frame (.event (.userInput "main" "q1" "r1" "name?")),
    .key (.char 'y') {}, .key (.char 'o') {}, .key (.char 'm') { control := true }, .key (.char 'h') {}, .key .enter {}]

def testTerminal : Terminal := start 7 0 (some (.res { id := "connect-0", result := .ok .empty }))

theorem testActs_dialog : dialog (fun _ _ => "") testTerminal testActs =
    [.approvalAsked "a1", .approvalAsked "a2", .inputAsked "q1", .approvalReplied "a2" true,
      .inputReplied "q1" (some "o"), .spoke "h"] := by
  decide +kernel

theorem testActs_run : (Steps.exec (step fun _ _ => "") testTerminal testActs).isSome := by
  decide +kernel

theorem in_turn_sample : ∃ t, Steps.exec (step fun _ _ => "") testTerminal testActs = some t ∧
    openApproval [.approvalAsked "a1", .approvalAsked "a2", .inputAsked "q1"] = some "a2" ∧
    t.screen.pendingInput = none := by
  obtain ⟨t, ht⟩ := Option.isSome_iff_exists.1 testActs_run
  obtain ⟨hin, -, hinput, -⟩ := in_turn ht testActs_dialog.symm
  refine ⟨t, ht, ?_, hinput.trans (by decide)⟩
  exact hin [.approvalAsked "a1", .approvalAsked "a2", .inputAsked "q1"] (.approvalReplied "a2" true) _ rfl

end Terminal

end Tui

end OhMyClaw
