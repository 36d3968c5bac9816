import OhMyClaw.Core.Compaction
import OhMyClaw.Lib.RustStr
import OhMyClaw.Server.History

/-!
# Model turns that return a text, and the compaction built on one

Two background jobs ask the model for a text: the summary of a compaction and the
consolidation of the long-term memory.  Both collect the text deltas of the stream; they
differ in whether the loop ends at the stop reason or at the end of the stream.  Neither
looks at how the stream ended: a text that breaks off is a text.

    modelText_eq_none_iff      when a turn returns nothing
    compactCore_eq_self_iff    when a compaction leaves the store as it was
-/

namespace OhMyClaw

/-- One answer of a provider, up to the timeout: whether the stream opened, what came, and
whether it then neither ended nor went on. -/
structure ProviderTurn where
  opens : Bool
  items : List (Except String Delta)
  stalls : Bool

/-- The collecting loop, with the text so far; answers also whether the loop was left before
the stream was exhausted. -/
def collect (stopsAtDone : Bool) : List (Except String Delta) → String → String × Bool
  | [], acc => (acc, false)
  | .ok (.text t) :: items, acc => collect stopsAtDone items (acc ++ t)
  | .ok (.done _) :: items, acc =>
    if stopsAtDone then (acc, true) else collect stopsAtDone items acc
  | .ok (.reasoning _) :: items, acc => collect stopsAtDone items acc
  | .ok (.toolCall _) :: items, acc => collect stopsAtDone items acc
  | .ok (.usage _) :: items, acc => collect stopsAtDone items acc
  | .error _ :: _, acc => (acc, true)

/-- The collected text, trimmed; nothing if it is blank or the timeout fired. -/
def modelText (stopsAtDone : Bool) (turn : ProviderTurn) : Option String :=
  if turn.opens then
    let r := collect stopsAtDone turn.items ""
    if !r.2 && turn.stalls then none
    else
      let text := RustStr.trim r.1.toList
      if text.isEmpty then none else some (String.ofList text)
  else none

def summarize (messages : List Message) (turn : ProviderTurn) : Option String :=
  if messages.isEmpty then none else modelText true turn

def runModelWithSystem (turn : ProviderTurn) : Option String := modelText false turn

/-! ## What the loop collects -/

/-- The item ends the loop. -/
def leaves (stopsAtDone : Bool) : Except String Delta → Bool
  | .error _ => true
  | .ok (.done _) => stopsAtDone
  | .ok _ => false

/-- The items the loop gets to see before it is left. -/
def heard (stopsAtDone : Bool) (items : List (Except String Delta)) : List (Except String Delta) :=
  items.takeWhile (!leaves stopsAtDone ·)

/-- The text of some items, end to end. -/
def textOf : List (Except String Delta) → String
  | [] => ""
  | .ok (.text t) :: items => t ++ textOf items
  | _ :: items => textOf items

theorem collect_eq (stopsAtDone : Bool) (items : List (Except String Delta)) (acc : String) :
    collect stopsAtDone items acc =
      (acc ++ textOf (heard stopsAtDone items), items.any (leaves stopsAtDone)) := by
  induction items generalizing acc with
  | nil => simp [collect, heard, textOf]
  | cons item items ih =>
    cases item with
    | error e => simp [collect, heard, textOf, leaves]
    | ok d =>
      cases d with
      | text t =>
        rw [collect, ih]
        simp [heard, textOf, leaves, String.append_assoc]
      | done r =>
        cases stopsAtDone with
        | true => simp [collect, heard, textOf, leaves]
        | false =>
          rw [collect, if_neg Bool.false_ne_true, ih]
          simp [heard, textOf, leaves]
      | reasoning r =>
        rw [collect, ih]
        simp [heard, textOf, leaves]
      | toolCall tc =>
        rw [collect, ih]
        simp [heard, textOf, leaves]
      | usage u =>
        rw [collect, ih]
        simp [heard, textOf, leaves]

/-- Nothing came that ends the loop, and then nothing came at all. -/
def ProviderTurn.TimesOut (turn : ProviderTurn) (stopsAtDone : Bool) : Prop :=
  turn.stalls = true ∧ turn.items.any (leaves stopsAtDone) = false

/-- All that came before the loop was left is white space. -/
def ProviderTurn.Blank (turn : ProviderTurn) (stopsAtDone : Bool) : Prop :=
  RustStr.trim (textOf (heard stopsAtDone turn.items)).toList = []

/-- The turn brings no text to act on. -/
def ProviderTurn.Silent (turn : ProviderTurn) (stopsAtDone : Bool) : Prop :=
  turn.opens = false ∨ turn.TimesOut stopsAtDone ∨ turn.Blank stopsAtDone

theorem modelText_eq_none_iff (stopsAtDone : Bool) (turn : ProviderTurn) :
    modelText stopsAtDone turn = none ↔ turn.Silent stopsAtDone := by
  unfold modelText ProviderTurn.Silent ProviderTurn.TimesOut ProviderTurn.Blank
  rw [collect_eq, String.empty_append]
  cases turn.opens with
  | false => simp
  | true =>
    cases turn.stalls with
    | false => simp
    | true =>
      cases turn.items.any (leaves stopsAtDone) with
      | false => simp
      | true => simp

/-- The stream came to a stop reason other than the length limit. -/
def finishes : List (Except String Delta) → Bool
  | [] => false
  | .error _ :: _ => false
  | .ok (.done r) :: _ => r ≠ .length
  | .ok _ :: items => finishes items

/-- The turn did not end the way a complete answer does. -/
def ProviderTurn.Abnormal (turn : ProviderTurn) : Prop :=
  (turn.opens && finishes turn.items) = false

/-! ## Compaction -/

/-- What a compaction summarises: all loaded entries but the most recent, if there are enough. -/
def olderEntries (entries : List Entry) : Option (List Entry) :=
  let keepRecent := CompactCfg.default.keepRecent
  if entries.length ≤ keepRecent + 1 then none
  else some (entries.take (entries.length - keepRecent))

def upToSeq (older : List Entry) : Nat :=
  match older.getLast? with
  | some e => e.seq
  | none => 0

/-- An entry as it is shown to the summariser. -/
def summaryMessage (e : Entry) : Message :=
  match e.role with
  | .assistant => .plain .assistant e.content
  | .system => .plain .system e.content
  | .tool => .plain .user e.content
  | .user => .plain .user e.content

/-- Compact a session with nothing else going on; `loads` says whether the transcript could be
read.  A write that is refused changes nothing. -/
def compactCore (db : Db) (id : String) (cfg : SessionConfig) (loads : Bool) (turn : ProviderTurn) :
    Db :=
  if loads then
    match olderEntries (loadTranscript db id cfg.maxHistoryEntries) with
    | none => db
    | some older =>
      match summarize (older.map summaryMessage) turn with
      | none => db
      | some summary => (compactWithSummary db id (upToSeq older) summary).getD db
  else db

theorem olderEntries_eq_some {entries older : List Entry} :
    olderEntries entries = some older ↔
      CompactCfg.default.keepRecent + 1 < entries.length ∧
        older = entries.take (entries.length - CompactCfg.default.keepRecent) := by
  simp only [olderEntries]
  split
  · next h =>
    simp only [reduceCtorEq, false_iff, not_and]
    omega
  · next h =>
    rw [Option.some_inj, eq_comm]
    exact ⟨fun he => ⟨by omega, he⟩, And.right⟩

theorem olderEntries_eq_none {entries : List Entry} :
    olderEntries entries = none ↔ entries.length ≤ CompactCfg.default.keepRecent + 1 := by
  simp only [olderEntries]
  split
  · next h => simp [h]
  · next h => simp [h]

theorem compactWithSummary_ne_none {db : Db} {id : String} (h : db.hasSession id = true)
    (upTo : Nat) (summary : String) : compactWithSummary db id upTo summary ≠ none := by
  have hs : db.hasSession (summaryEntry id summary).sessionId = true := h
  simp [compactWithSummary, appendEntry, hs]

/-- A summary that is written is seen in the store. -/
theorem compactWithSummary_getD_ne {db : Db} {id : String} (h : db.hasSession id = true)
    (upTo : Nat) (summary : String) : (compactWithSummary db id upTo summary).getD db ≠ db := by
  cases hw : compactWithSummary db id upTo summary with
  | none => exact absurd hw (compactWithSummary_ne_none h upTo summary)
  | some db' =>
    intro heq
    have hlog := log_compactWithSummary hw
    rw [Option.getD_some] at heq
    rw [heq] at hlog
    simpa using congrArg List.length hlog

theorem compactWithSummary_eq_none {db : Db} {id : String} (h : db.hasSession id = false)
    (upTo : Nat) (summary : String) : compactWithSummary db id upTo summary = none := by
  have hs : db.hasSession (summaryEntry id summary).sessionId = false := h
  simp [compactWithSummary, appendEntry, hs]

/-- Whatever the turn was like, the store stays as it was exactly if there is nothing to
summarise, the turn is silent or the session is not there. -/
theorem compactCore_eq_self_iff (db : Db) (id : String) (cfg : SessionConfig) (loads : Bool)
    (turn : ProviderTurn) :
    compactCore db id cfg loads turn = db ↔
      loads = false ∨
      (loadTranscript db id cfg.maxHistoryEntries).length ≤ CompactCfg.default.keepRecent + 1 ∨
      turn.Silent true ∨ db.hasSession id = false := by
  unfold compactCore
  cases loads with
  | false => simp
  | true =>
    simp only [if_true, Bool.true_eq_false, false_or]
    cases holder : olderEntries (loadTranscript db id cfg.maxHistoryEntries) with
    | none => simp [olderEntries_eq_none.1 holder]
    | some older =>
      obtain ⟨hlen, rfl⟩ := olderEntries_eq_some.1 holder
      have hne : ¬ ((loadTranscript db id cfg.maxHistoryEntries).take
          ((loadTranscript db id cfg.maxHistoryEntries).length -
            CompactCfg.default.keepRecent) |>.map summaryMessage).isEmpty = true := by
        simp only [List.isEmpty_iff, List.map_eq_nil_iff, List.take_eq_nil_iff, not_or]
        refine ⟨by omega, ?_⟩
        rintro hnil
        simp [hnil] at hlen
      have hlong : ¬ (loadTranscript db id cfg.maxHistoryEntries).length ≤
          CompactCfg.default.keepRecent + 1 := by omega
      simp only [hlong, false_or, ← modelText_eq_none_iff, summarize, hne, if_false,
        Bool.false_eq_true]
      cases modelText true turn with
      | none => simp
      | some summary =>
        cases hs : db.hasSession id with
        | true => simpa using compactWithSummary_getD_ne hs _ summary
        | false => simp [compactWithSummary_eq_none hs]

end OhMyClaw
