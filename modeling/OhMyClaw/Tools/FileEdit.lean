import OhMyClaw.Lib.Bytes
import OhMyClaw.Lib.Find
import OhMyClaw.Lib.Utf8
import OhMyClaw.Tools.PathGuard

/-!
# The edit of a file

`edit` replaces a text in a file.  The text has to be in the file as it is given, or with its line
feeds turned into the file's CRLF; and without `replaceAll` it has to be there once.  How often it
is there is counted from the left, without overlap.

    edit_eq_ok    what an edit that succeeds has read and written
    edited_iff    when an edit that succeeds has replaced the only occurrence

A write that the system refuses is left out.
-/

namespace OhMyClaw

open Posix

inductive ToolError where
  | badArgs (msg : List Char)
  | io
  | pathNotAllowed (p : Path)

structure ToolOutput where
  content : List Char
  success : Bool
deriving DecidableEq, Repr

namespace FileEdit

/-- Where the tool runs; `display` is how a path is shown. -/
structure Env where
  host : Host
  home : Option (List Char)
  allowedRoots : List Path
  cwd : Path
  display : Path → List Char

/-- The bytes of the files. -/
abbrev Files := Loc → Option (List UInt8)

def check (env : Env) (path : List Char) : Except ToolError Path :=
  match PathGuard.FileTool.check env.host env.home env.allowedRoots env.cwd path with
  | .ok p => .ok p
  | .error .io => .error .io
  | .error (.notAllowed p) => .error (.pathNotAllowed p)

/-- `read_to_string`: the file a path leads to, and its text. -/
def readToString (env : Env) (files : Files) (p : Path) : Option (Loc × List Char) := do
  let loc ← env.host.resolve? p
  let bytes ← files loc
  let content ← Utf8.fromUtf8 bytes
  some (loc, content)

/-- The text with a carriage return ahead of every line feed. -/
def toCrlf (s : List Char) : List Char := s.flatMap fun c => if c = '\n' then ['\r', '\n'] else [c]

/-- What is looked for and what it is replaced by. -/
def resolveNeedle (content old new : List Char) : Option (List Char × List Char) :=
  if RustStr.contains content old then some (old, new)
  else if RustStr.contains content ['\r', '\n'] ∧ '\n' ∈ old ∧ ¬ RustStr.contains old ['\r', '\n'] then
    if RustStr.contains content (toCrlf old) then some (toCrlf old, toCrlf new) else none
  else none

def collapseWs (s : List Char) : List Char := [' '].intercalate (RustStr.splitWhitespace s)

def noMatchHint (content old : List Char) : List Char :=
  let msg := "未在文件中找到 old_string，文件未改动。".toList
  if RustStr.contains (collapseWs content) (collapseWs old) then
    msg ++ ("\n内容能对上，但**空白不同**（缩进宽度、空格与制表符、行尾空格）。" ++
      "old_string 必须与文件逐字符一致，请先用 op=read 取回原文再照抄。").toList
  else
    let found := do
      let first ← ((RustStr.lines old).head?.map RustStr.trim).filter (· ≠ [])
      let n ← (RustStr.lines content).findIdx? (fun l => RustStr.trim l = first)
      some (first, n)
    match found with
    | some (first, n) =>
      msg ++ "\n首行「".toList ++ first ++ "」出现在第 ".toList ++ (toString (n + 1)).toList ++
        " 行附近，但后续内容不一致。建议 op=read 取回该处原文后再改。".toList
    | none => msg ++ "\n请先用 op=read 确认文件当前内容——它可能与你记忆中的不同。".toList

def ambiguous (count : Nat) : List Char :=
  "old_string 在文件中出现 ".toList ++ (toString count).toList ++
    (" 次，无法确定改哪一处。请补上更多上下文（前后各多带几行）使其唯一，" ++
      "或确实要全改时传 replace_all=true。文件未改动。").toList

/-- The text after the edit and how many occurrences were counted, or what the model is told. -/
def replaceIn (content old new : List Char) (replaceAll : Bool) : Except (List Char) (List Char × Nat) :=
  match resolveNeedle content old new with
  | none => .error (noMatchHint content old)
  | some (needle, replacement) =>
    let count := Find.count needle content
    if 1 < count ∧ ¬ replaceAll then .error (ambiguous count)
    else
      .ok (if replaceAll then Find.replace needle replacement content
        else Find.replaceFirst needle replacement content, count)

/-- What an edit leaves: its result, its progress messages, the files. -/
structure Outcome where
  result : Except ToolError ToolOutput
  updates : List (List Char)
  files : Files

def Outcome.succeeded (o : Outcome) : Bool :=
  match o.result with
  | .ok out => out.success
  | .error _ => false

def edit (env : Env) (files : Files) (path old new : List Char) (replaceAll : Bool) : Outcome :=
  let refused (result : Except ToolError ToolOutput) : Outcome := { result, updates := [], files }
  if old = [] then refused (.error (.badArgs "old_string 不能为空（空串匹配任意位置）".toList))
  else if old = new then
    refused (.error (.badArgs "old_string 与 new_string 相同，这次调用不会改变任何内容".toList))
  else
    match check env path with
    | .error e => refused (.error e)
    | .ok p =>
      match readToString env files p with
      | none => refused (.error .io)
      | some (loc, content) =>
        match replaceIn content old new replaceAll with
        | .error hint => refused (.ok { content := hint, success := false })
        | .ok (updated, count) => {
            result := .ok {
              content := "已编辑 ".toList ++ env.display p ++ "：替换 ".toList ++ (toString count).toList ++
                " 处，".toList ++ (toString (Bytes.len content)).toList ++ " → ".toList ++
                (toString (Bytes.len updated)).toList ++ " 字节".toList
              success := true }
            updates := ["编辑 ".toList ++ env.display p ++ " (".toList ++ (toString count).toList ++ " 处)\n".toList]
            files := Function.update files loc (some (Utf8.encode updated)) }

/-! ## What an edit has read and written -/

/-- The file an edit works on and its text. -/
def opened (env : Env) (files : Files) (path : List Char) : Option (Loc × List Char) :=
  match check env path with
  | .error _ => none
  | .ok p => readToString env files p

variable {env : Env} {files : Files} {path content old new needle replacement : List Char} {replaceAll : Bool} {loc : Loc}

theorem edit_of_replaceIn (hold : old ≠ []) (hnew : old ≠ new)
    (hopened : opened env files path = some (loc, content)) {updated : List Char} {count : Nat}
    (hreplace : replaceIn content old new replaceAll = .ok (updated, count)) :
    (edit env files path old new replaceAll).succeeded = true ∧
      (edit env files path old new replaceAll).files =
        Function.update files loc (some (Utf8.encode updated)) := by
  unfold opened at hopened
  cases hcheck : check env path with
  | error e =>
    rw [hcheck] at hopened
    cases hopened
  | ok p =>
    rw [hcheck] at hopened
    simp only [edit, if_neg hold, if_neg hnew, hcheck, hopened, hreplace, Outcome.succeeded, and_self]

/-- An edit that does not succeed leaves every file as it was; one that does has replaced the text
of the file it has read. -/
theorem edit_cases (env : Env) (files : Files) (path old new : List Char) (replaceAll : Bool) :
    ((edit env files path old new replaceAll).succeeded = false ∧
        (edit env files path old new replaceAll).files = files) ∨
      ∃ loc content updated count, old ≠ [] ∧ old ≠ new ∧ opened env files path = some (loc, content) ∧
        replaceIn content old new replaceAll = .ok (updated, count) := by
  by_cases hold : old = []
  · exact Or.inl (by simp only [edit, if_pos hold, Outcome.succeeded, and_self])
  by_cases hnew : old = new
  · exact Or.inl (by simp only [edit, if_neg hold, if_pos hnew, Outcome.succeeded, and_self])
  cases hcheck : check env path with
  | error e =>
    exact Or.inl (by simp only [edit, if_neg hold, if_neg hnew, hcheck, Outcome.succeeded, and_self])
  | ok p =>
    cases hread : readToString env files p with
    | none =>
      exact Or.inl (by
        simp only [edit, if_neg hold, if_neg hnew, hcheck, hread, Outcome.succeeded, and_self])
    | some r =>
      have hopened : opened env files path = some (r.1, r.2) := by
        rw [opened, hcheck]
        exact hread
      cases hreplace : replaceIn r.2 old new replaceAll with
      | error hint =>
        exact Or.inl (by
          simp only [edit, if_neg hold, if_neg hnew, hcheck, hread, hreplace, Outcome.succeeded, and_self])
      | ok u => exact Or.inr ⟨r.1, r.2, u.1, u.2, hold, hnew, hopened, hreplace⟩

/-- What is looked for stands in the text. -/
theorem resolveNeedle_eq_some (h : resolveNeedle content old new = some (needle, replacement)) :
    needle <:+: content ∧
      ((old <:+: content ∧ needle = old ∧ replacement = new) ∨
        (¬ old <:+: content ∧ needle = toCrlf old ∧ replacement = toCrlf new)) := by
  unfold resolveNeedle at h
  split at h
  · next hplain =>
    obtain ⟨rfl, rfl⟩ := Prod.mk.inj (Option.some.inj h)
    have hplain := RustStr.contains_iff.1 hplain
    exact ⟨hplain, Or.inl ⟨hplain, rfl, rfl⟩⟩
  · next hplain =>
    split at h
    · split at h
      · next hcrlf =>
        obtain ⟨rfl, rfl⟩ := Prod.mk.inj (Option.some.inj h)
        exact ⟨RustStr.contains_iff.1 hcrlf, Or.inr ⟨mt RustStr.contains_iff.2 hplain, rfl, rfl⟩⟩
      · cases h
    · cases h

theorem toCrlf_ne_nil (h : old ≠ []) : toCrlf old ≠ [] := by
  obtain ⟨c, s, rfl⟩ := List.exists_cons_of_ne_nil h
  unfold toCrlf
  rw [List.flatMap_cons]
  split <;> simp

theorem needle_ne_nil (hold : old ≠ []) (h : resolveNeedle content old new = some (needle, replacement)) :
    needle ≠ [] := by
  rcases (resolveNeedle_eq_some h).2 with ⟨-, rfl, -⟩ | ⟨-, rfl, -⟩
  · exact hold
  · exact toCrlf_ne_nil hold

/-- Every occurrence is replaced, or the search has found one occurrence and that is replaced. -/
theorem replaceIn_eq_ok (hold : old ≠ []) {updated : List Char} {count : Nat}
    (h : replaceIn content old new replaceAll = .ok (updated, count)) :
    ∃ needle replacement, resolveNeedle content old new = some (needle, replacement) ∧
      count = Find.count needle content ∧
      ((replaceAll = true ∧ updated = Find.replace needle replacement content) ∨
        (replaceAll = false ∧ Find.count needle content = 1 ∧
          updated = Find.replaceFirst needle replacement content)) := by
  unfold replaceIn at h
  cases hneedle : resolveNeedle content old new with
  | none =>
    rw [hneedle] at h
    cases h
  | some r =>
    obtain ⟨needle, replacement⟩ := r
    simp only [hneedle] at h
    have hpos := (Find.count_pos (needle_ne_nil hold hneedle)).2 (resolveNeedle_eq_some hneedle).1
    split at h
    · cases h
    · next hcount =>
      obtain ⟨rfl, rfl⟩ := Prod.mk.inj (Except.ok.inj h)
      refine ⟨needle, replacement, rfl, rfl, ?_⟩
      cases replaceAll with
      | true => exact Or.inl ⟨rfl, rfl⟩
      | false =>
        have hone : Find.count needle content = 1 := by
          by_contra hne
          exact hcount ⟨by omega, by simp⟩
        exact Or.inr ⟨rfl, hone, rfl⟩

theorem replaceIn_of_count (h : resolveNeedle content old new = some (needle, replacement))
    (hcount : Find.count needle content = 1) :
    replaceIn content old new false = .ok (Find.replaceFirst needle replacement content, 1) := by
  unfold replaceIn
  rw [h]
  simp [hcount]

/-! ## The only occurrence -/

/-- The text to look for is the old one, or its CRLF form where the old one does not occur. -/
def Sought (content old new needle replacement : List Char) : Prop :=
  (old <:+: content ∧ needle = old ∧ replacement = new) ∨
    (¬ old <:+: content ∧ needle = toCrlf old ∧ replacement = toCrlf new)

/-- `needle` stands at one position of the text, overlapping positions counted, and is replaced
there. -/
def OnlyReplaced (needle replacement content updated : List Char) : Prop :=
  ∃ a b, content = a ++ (needle ++ b) ∧ updated = a ++ (replacement ++ b) ∧
    ∀ a' b', content = a' ++ (needle ++ b') → a' = a

/-- An edit that succeeds has replaced the only occurrence, or every occurrence from the left; one
that is refused has changed nothing. -/
def Edited (env : Env) (files : Files) (path old new : List Char) (replaceAll : Bool) : Prop :=
  let outcome := edit env files path old new replaceAll
  (outcome.succeeded = true → ∃ loc content needle replacement updated,
      opened env files path = some (loc, content) ∧ Sought content old new needle replacement ∧
      outcome.files = Function.update files loc (some (Utf8.encode updated)) ∧
      if replaceAll then Find.Replaced needle replacement content updated
      else OnlyReplaced needle replacement content updated) ∧
    (outcome.succeeded = false → outcome.files = files)

theorem onlyReplaced_of_count (hneedle : needle ≠ []) (hcount : Find.count needle content = 1)
    (hover : ¬ Find.Overlapped needle content) :
    OnlyReplaced needle replacement content (Find.replaceFirst needle replacement content) := by
  obtain ⟨a, b, rfl, hclear, hb⟩ := (Find.count_eq_one hneedle).1 hcount
  refine ⟨a, b, rfl, Find.replaceFirst_of_occurrence hneedle replacement hclear, fun a' b' hsplit => ?_⟩
  by_contra hne
  exact hover (Find.overlapped_of_ne hclear hb hsplit hne)

/-- With an overlapped occurrence the edit succeeds although the text stands at two positions. -/
theorem not_edited_of_overlapped (hnew : old ≠ new) (hopened : opened env files path = some (loc, content))
    (hresolve : resolveNeedle content old new = some (needle, replacement))
    (hover : Find.Overlapped needle content) : ¬ Edited env files path old new false := by
  intro h
  have hneedle := hover.ne_nil
  have hold : old ≠ [] := by
    rintro rfl
    rcases (resolveNeedle_eq_some hresolve).2 with ⟨-, rfl, -⟩ | ⟨-, rfl, -⟩
    · exact hneedle rfl
    · exact hneedle rfl
  obtain ⟨hsucceeded, -⟩ := edit_of_replaceIn hold hnew hopened
    (replaceIn_of_count hresolve (hover.count_eq_one hneedle))
  obtain ⟨loc', content', needle', replacement', updated, hopened', hsought, -, honly⟩ := h.1 hsucceeded
  obtain ⟨rfl, rfl⟩ := Prod.mk.inj (Option.some.inj (hopened.symm.trans hopened'))
  obtain rfl : needle' = needle := by
    rcases hsought with ⟨hin, rfl, -⟩ | ⟨hout, rfl, -⟩
    all_goals rcases (resolveNeedle_eq_some hresolve).2 with ⟨hin', rfl, -⟩ | ⟨hout', rfl, -⟩
    · rfl
    · exact absurd hin hout'
    · exact absurd hin' hout
    · rfl
  obtain ⟨a, b, a', b', hab, hab', hne⟩ := hover.exists_ne
  obtain ⟨_, _, -, -, hunique⟩ := honly
  exact hne ((hunique a b hab).trans (hunique a' b' hab').symm)

/-- An edit without `replaceAll` is right exactly when the one occurrence its search finds is not
overlapped by another. -/
theorem edited_iff (env : Env) (files : Files) (path old new : List Char) (replaceAll : Bool) :
    Edited env files path old new replaceAll ↔
      (old = new ∨ replaceAll = true ∨ ∀ loc content needle replacement,
        opened env files path = some (loc, content) →
          resolveNeedle content old new = some (needle, replacement) → ¬ Find.Overlapped needle content) := by
  constructor
  · intro h
    by_cases hnew : old = new
    · exact Or.inl hnew
    cases replaceAll with
    | true => exact Or.inr (Or.inl rfl)
    | false =>
      refine Or.inr (Or.inr fun loc content needle replacement hopened hresolve hover => ?_)
      exact not_edited_of_overlapped hnew hopened hresolve hover h
  · intro h
    refine ⟨fun hsucceeded => ?_, fun hrefused => ?_⟩
    · rcases edit_cases env files path old new replaceAll with
        ⟨hrefused, -⟩ | ⟨loc, content, updated, count, hold, hnew, hopened, hreplace⟩
      · rw [hsucceeded] at hrefused
        cases hrefused
      · obtain ⟨needle, replacement, hresolve, -, hupdated⟩ := replaceIn_eq_ok hold hreplace
        have hneedle := needle_ne_nil hold hresolve
        refine ⟨loc, content, needle, replacement, updated, hopened, (resolveNeedle_eq_some hresolve).2,
          (edit_of_replaceIn hold hnew hopened hreplace).2, ?_⟩
        rcases hupdated with ⟨rfl, rfl⟩ | ⟨rfl, hcount, rfl⟩
        · exact (Find.replace_iff hneedle).1 rfl
        · have hover := (h.resolve_left hnew).resolve_left (by simp) loc content needle replacement hopened hresolve
          exact onlyReplaced_of_count hneedle hcount hover
    · rcases edit_cases env files path old new replaceAll with
        ⟨-, hfiles⟩ | ⟨loc, content, updated, count, hold, hnew, hopened, hreplace⟩
      · exact hfiles
      · rw [(edit_of_replaceIn hold hnew hopened hreplace).1] at hrefused
        cases hrefused

/-! ## An edit -/

/-- A file with the given bytes in a directory with nothing else in it. -/
def notes (bytes : List UInt8) : Env × Files :=
  ({ host := { entries := [("notes", .file)], dir := [], maxLinks := 40, refuses := fun _ => false,
               refuses_below := fun _ _ _ h => h }
     home := none
     allowedRoots := []
     cwd := { absolute := true, segs := [] }
     display := fun _ => "/notes".toList },
    fun loc => if loc = ["notes"] then some bytes else none)

/-- Of three letters two pairs are one too many: the edit replaces the first. -/
theorem edited_fails :
    ¬ Edited (notes [97, 97, 97]).1 (notes [97, 97, 97]).2 "notes".toList ['a', 'a'] ['b'] false := by
  have hopened : opened (notes [97, 97, 97]).1 (notes [97, 97, 97]).2 "notes".toList =
      some (["notes"], ['a', 'a', 'a']) := by decide
  have hresolve : resolveNeedle ['a', 'a', 'a'] ['a', 'a'] ['b'] = some (['a', 'a'], ['b']) := by decide
  refine not_edited_of_overlapped (by decide) hopened hresolve ?_
  exact ⟨[], ['a'], ['a'], [], rfl, Find.clear_nil _ _, by decide, rfl, by decide, by decide⟩

end FileEdit

end OhMyClaw
