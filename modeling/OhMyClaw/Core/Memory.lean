import Mathlib.Algebra.Order.Ring.Rat
import Mathlib.Data.List.Sort
import OhMyClaw.Lib.RustStr
import OhMyClaw.Store.Memory
import OhMyClaw.Store.Transcript

/-!
# What is worth remembering

The rules by which a message is taken for a memory: an explicit order to remember, the topic of
a preference, and the episodes of a conversation; and which memories a message recalls.

`toLowercase` is the Unicode lower-case mapping of the standard library.  A floating-point number
is the rational it stands for, and `fl` rounds the result of an operation to one.
-/

namespace OhMyClaw

/-! ## Preferences -/

inductive SupersedePlan where
  | replace (existingId : String)
  | add
  | ignore
deriving DecidableEq, Repr

structure Pref where
  id : String
  key : String
  value : String
deriving DecidableEq, Repr

/-- The first preference on the topic decides. -/
def supersede (existing : List Pref) (incoming : Pref) : SupersedePlan :=
  match existing.find? (·.key = incoming.key) with
  | some e => if e.value = incoming.value then .ignore else .replace e.id
  | none => .add

def prefTopics : List (String × List String) :=
  [("编辑器", ["vs code", "vscode", "neovim", "nvim", "vim", "emacs", "sublime", "jetbrains", "intellij",
      "编辑器", "ide"]),
    ("操作系统", ["windows", "macos", "mac os", "linux", "ubuntu", "debian", "操作系统", "系统是", "系统用"]),
    ("编程语言", ["rust", "python", "java", "golang", "go 语言", "typescript", "javascript", "c++", "编程语言",
      "主力语言", "写代码用"]),
    ("回复风格", ["简洁", "详细", "回复风格", "别啰嗦", "长话短说", "说重点"]),
    ("回复语言", ["中文", "英文", "english", "回复语言", "用中文", "用英文"]),
    ("称呼", ["叫我", "称呼我", "我的名字"])]

/-- The first topic one of whose words occurs in the text. -/
def extractPrefKey (toLowercase : List Char → List Char) (text : String) : Option String :=
  let lower := toLowercase text.toList
  (prefTopics.find? fun topic => topic.2.any fun t => RustStr.contains lower t.toList).map (·.1)

/-! ## Standing intents -/

structure StandingIntent where
  id : String
  keywords : List String
deriving DecidableEq, Repr

/-- The intents one of whose keywords occurs in the message. -/
def intentPrefilter (toLowercase : List Char → List Char) (msg : String) (intents : List StandingIntent) :
    List String :=
  let lower := toLowercase msg.toList
  (intents.filter fun i =>
    i.keywords.any fun k => k.toList ≠ [] && RustStr.contains lower (toLowercase k.toList)).map (·.id)

/-! ## Recall -/

/-- The fields of a candidate that the trigger filter reads. -/
structure MemCandidate where
  id : String
  tier : Tier
  text : String
  importance : ℚ
deriving DecidableEq, Repr

/-- How many of the terms occur in the text, whatever their case. -/
def hitCount (toLowercase : List Char → List Char) (queryTerms : List String) (text : String) : Nat :=
  let lower := toLowercase text.toList
  (queryTerms.filter fun t => t.toList ≠ [] && RustStr.contains lower (toLowercase t.toList)).length

/-- The curated candidates that hold one of the terms: those with the most first, and of these the
most important.  The message and the threshold are arguments of the source that it does not read. -/
def triggerPrefilter (toLowercase : List Char → List Char) (cands : List MemCandidate)
    (queryTerms : List String) (max : Nat) : List String :=
  let scored := ((cands.filter (·.tier = .curated)).map fun c => (hitCount toLowercase queryTerms c.text, c)).filter
    (1 ≤ ·.1)
  ((scored.insertionSort fun a b => b.1 < a.1 ∨ a.1 = b.1 ∧ b.2.importance ≤ a.2.importance).take max).map (·.2.id)

/-! ## Explicit orders -/

def rememberTriggers : List String :=
  ["记住", "记一下", "记下", "别忘了", "帮我记", "请记住", "remember that ", "remember ", "note that ",
    "please remember "]

/-- What goes between the order and what is to be remembered. -/
def isLead (c : Char) : Bool :=
  RustStr.isWhitespace c || c = '：' || c = ':' || c = ',' || c = '，'

/-- What a message orders to be remembered.  The trigger is found in the lower case of the message and cut
off the message itself; its letters are the lower case of no characters but themselves and their capitals,
so it has the same length there. -/
def detectExplicitMemory (toLowercase : List Char → List Char) (msg : String) : Option String :=
  let trimmed := RustStr.trimStart msg.toList
  let lower := toLowercase trimmed
  rememberTriggers.findSome? fun trig =>
    if RustStr.startsWith lower trig.toList then
      let content := RustStr.trim ((trimmed.drop trig.toList.length).dropWhile isLead)
      if content = [] then none else some (String.ofList content)
    else none

/-! ## Episodes -/

structure EpisodeCandidate where
  content : String
  importance : ℚ
deriving DecidableEq, Repr

structure ConversationEntry where
  role : Role
  content : String
deriving DecidableEq, Repr

def minPairChars : Nat := 12
def minLoneUserChars : Nat := 15
def minLoneAssistantChars : Nat := 40

/-- Whether a text asks something. -/
def asks (text : String) : Bool :=
  ["?", "？", "怎么", "如何"].any fun p => RustStr.contains text.toList p.toList

def tellsOfTrouble (text : String) : Bool :=
  ["我的", "遇到", "出现", "报错", "问题", "决定", "选择"].any fun p => RustStr.contains text.toList p.toList

def isSubstantial (text : String) : Bool :=
  ["\x60\x60\x60", "1. ", "- "].any fun p => RustStr.contains text.toList p.toList

section Importance

variable (fl : ℚ → ℚ)

/-- Add to a score if there is a reason to. -/
def bonus (reason : Bool) (amount score : ℚ) : ℚ := if reason then fl (score + fl amount) else score

def estimateImportanceSingle (text : String) (role : Role) : ℚ :=
  let len := text.length
  let score := fl (3 / 10)
  let score := bonus fl (50 < len) (1 / 10) score
  let score := bonus fl (150 < len) (1 / 10) score
  let score := bonus fl (role = .user && asks text) (15 / 100) score
  let score := bonus fl (tellsOfTrouble text) (1 / 10) score
  min score (fl (7 / 10))

def estimateImportancePair (user assistant : String) : ℚ :=
  let totalLen := user.length + assistant.length
  let score := fl (55 / 100)
  let score := bonus fl (100 < totalLen) (15 / 100) score
  let score := bonus fl (300 < totalLen) (1 / 10) score
  let score := bonus fl (asks user && 10 < assistant.length) (15 / 100) score
  let score := bonus fl (isSubstantial assistant) (1 / 10) score
  min score (fl (9 / 10))

variable (toLowercase : List Char → List Char)

/-- A message that no answer came to. -/
def flushLoneUser (u : ConversationEntry) : List EpisodeCandidate :=
  if u.content.length < minLoneUserChars then []
  else if (detectExplicitMemory toLowercase u.content).isSome then []
  else [{ content := u.content, importance := estimateImportanceSingle fl u.content .user }]

/-- A message and its answer. -/
def flushPair (u a : ConversationEntry) : List EpisodeCandidate :=
  if minPairChars ≤ u.content.length + a.content.length ∧
      (detectExplicitMemory toLowercase u.content).isNone then
    [{ content := u.content ++ "\n\n" ++ a.content, importance := estimateImportancePair fl u.content a.content }]
  else []

def flushLoneAssistant (a : ConversationEntry) : List EpisodeCandidate :=
  if minLoneAssistantChars ≤ a.content.length then
    [{ content := a.content, importance := estimateImportanceSingle fl a.content .assistant }]
  else []

/-- The loop over the entries, with the message that still waits for its answer. -/
def episodesFrom (pendingUser : Option ConversationEntry) : List ConversationEntry → List EpisodeCandidate
  | [] => pendingUser.elim [] (flushLoneUser fl toLowercase)
  | entry :: entries =>
    match entry.role with
    | .user => pendingUser.elim [] (flushLoneUser fl toLowercase) ++ episodesFrom (some entry) entries
    | .assistant =>
      -- A turn that only calls a tool says nothing; the message goes on waiting.
      if RustStr.trim entry.content.toList = [] then episodesFrom pendingUser entries
      else
        match pendingUser with
        | some u => flushPair fl toLowercase u entry ++ episodesFrom none entries
        | none => flushLoneAssistant fl entry ++ episodesFrom none entries
    | _ => episodesFrom pendingUser entries

def extractEpisodeCandidates (entries : List ConversationEntry) : List EpisodeCandidate :=
  episodesFrom fl toLowercase none entries

end Importance

end OhMyClaw
