import OhMyClaw.Lib.Utf8
import OhMyClaw.Server.Summarize

/-!
# Rewriting the long-term memory

The last step of a dreaming scan has the model rewrite `MEMORY.md`.  The file is read before
the model turn and again after it: if its hash has not changed it is replaced, otherwise the
new text is appended.  Like the summary of a compaction, the text is taken as it came, also
when the turn broke off, and it then replaces a complete file.

    rewriteMemoryMd_eq_iff     when the file is left as it was
-/

namespace OhMyClaw

/-- FNV-1a over the bytes of the text.  The source compares the 16 hexadecimal digits it prints
this number with. -/
def contentHash (s : String) : UInt64 :=
  (Utf8.encode s.toList).foldl (fun h b => (h ^^^ b.toUInt64) * 0x100000001b3) 0xcbf29ce484222325

/-- `format!("\x7bhash:016x\x7d")`. -/
def hashHex (s : String) : String :=
  let digits := Nat.toDigits 16 (contentHash s).toNat
  String.ofList (List.replicate (16 - digits.length) '0' ++ digits)

inductive WritePlan where
  | overwrite | appendOnly
deriving DecidableEq, Repr

def decideWrite (hashBefore hashNow : UInt64) : WritePlan :=
  if hashBefore = hashNow then .overwrite else .appendOnly

/-- How a write of the file went: through, refused, or stopped after its first line. -/
inductive Disk where
  | accepts | refuses | stopsShort
deriving DecidableEq, Repr

/-- A missing or unreadable file reads as empty. -/
def readOrEmpty (file : Option String) : String := file.getD ""

/-- The new text goes to a second file that then takes the place of the old one, so a write that
fails leaves the old one whole. -/
def atomicWrite (file : Option String) (body : String) : Disk → Option String
  | .accepts => some body
  | .refuses | .stopsShort => file

def appendMarker : String := "\n<!-- dreaming 追加（检测到并发修改，未覆盖原文） -->\n"

def appendSection (file : Option String) (body : String) : Disk → Option String
  | .accepts =>
    some (readOrEmpty file ++ appendMarker ++ String.ofList (RustStr.trim body.toList) ++ "\n")
  | .stopsShort => some (readOrEmpty file ++ appendMarker)
  | .refuses => file

def ensureTrailingNewline (s : String) : String :=
  if s.toList.getLast? = some '\n' then s else s ++ "\n"

/-- `MEMORY.md` after the rewrite.  `before` is the file as the turn began, `now` as the turn
ended: others may have written to it in between. -/
def rewriteMemoryMd (items : List String) (before now : Option String) (turn : ProviderTurn)
    (disk : Disk) : Option String :=
  if items.isEmpty then now
  else
    match runModelWithSystem turn with
    | none => now
    | some newBody =>
      match decideWrite (contentHash (readOrEmpty before)) (contentHash (readOrEmpty now)) with
      | .overwrite => atomicWrite now (ensureTrailingNewline newBody) disk
      | .appendOnly => appendSection now newBody disk

/-! ## When the file stays -/

/-- The text a turn ends up with. -/
def ProviderTurn.body (turn : ProviderTurn) : String :=
  String.ofList (RustStr.trim (textOf (heard false turn.items)).toList)

theorem runModelWithSystem_of_not_silent {turn : ProviderTurn} (h : ¬ turn.Silent false) :
    runModelWithSystem turn = some turn.body := by
  have hne : modelText false turn ≠ none := fun hn => h ((modelText_eq_none_iff false turn).1 hn)
  simp only [runModelWithSystem, ProviderTurn.body]
  simp only [modelText, collect_eq, String.empty_append] at hne ⊢
  split at hne
  · split at hne
    · exact absurd rfl hne
    · split at hne
      · exact absurd rfl hne
      · simp_all
  · exact absurd rfl hne

/-- Appending is seen in the file. -/
theorem some_append_ne {file : Option String} {s : String} (h : s ≠ "") :
    some (readOrEmpty file ++ s) ≠ file := by
  cases file with
  | none => nofun
  | some old =>
    intro heq
    have hlen := congrArg String.length (Option.some_inj.1 heq)
    rw [readOrEmpty, Option.getD_some, String.length_append] at hlen
    exact h (String.length_eq_zero_iff.1 (by omega))

/-- The file stays as it was exactly if there is nothing to consolidate, the turn is silent, the
write fails before it touches the file, or the file happens to hold the new text already. -/
theorem rewriteMemoryMd_eq_iff (items : List String) (before now : Option String)
    (turn : ProviderTurn) (disk : Disk) :
    rewriteMemoryMd items before now turn disk = now ↔
      items = [] ∨ turn.Silent false ∨ disk = .refuses ∨
      contentHash (readOrEmpty before) = contentHash (readOrEmpty now) ∧
        (disk = .stopsShort ∨ now = some (ensureTrailingNewline turn.body)) := by
  unfold rewriteMemoryMd
  cases items with
  | nil => simp
  | cons item items =>
    simp only [List.isEmpty_cons, Bool.false_eq_true, if_false, reduceCtorEq, false_or]
    by_cases hsilent : turn.Silent false
    · have hnone : runModelWithSystem turn = none := (modelText_eq_none_iff false turn).2 hsilent
      simp [hnone, hsilent]
    · simp only [runModelWithSystem_of_not_silent hsilent, hsilent, false_or]
      by_cases hhash : contentHash (readOrEmpty before) = contentHash (readOrEmpty now)
      · simp only [decideWrite, hhash, if_true, true_and]
        cases disk with
        | accepts => simp [atomicWrite, eq_comm]
        | refuses => simp [atomicWrite]
        | stopsShort => simp [atomicWrite]
      · simp only [decideWrite, hhash, if_false, false_and, or_false]
        cases disk with
        | refuses => simp [appendSection]
        | stopsShort => simpa [appendSection] using some_append_ne (by decide)
        | accepts =>
          simp only [appendSection, String.append_assoc, reduceCtorEq, iff_false]
          refine some_append_ne fun h => ?_
          have hlen := congrArg String.length h
          simp [appendMarker, String.length_append] at hlen

end OhMyClaw
