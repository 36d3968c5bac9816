import Mathlib.Data.List.DropRight
import OhMyClaw.Lib.Lines
import OhMyClaw.Lib.Utf8

/-!
# What a browser's script does to a text

A string is given by its characters: one that comes from a decoder has no lone surrogates, and
nothing here cuts a pair in two.

    decodeAll_eq     a streaming decoder gives a text back, however its bytes are cut
    frames_append    cutting a growing buffer at blank lines is cutting the whole text
    fieldOf          the value of a field of a frame, as a regular expression finds it
-/

namespace Js

/-! ## TextDecoder -/

def byteOrderMark : Char := Char.ofNat 0xFEFF

/-- A decoder in streaming mode: the sequence under way, and whether it has put out anything. -/
structure TextDecoder where
  pending : Option Utf8.Pending
  begun : Bool
deriving DecidableEq, Repr

namespace TextDecoder

def new : TextDecoder := { pending := none, begun := false }

/-- The decoder takes a byte order mark off the front of the whole text. -/
def dropMark : List Char → List Char
  | [] => []
  | c :: cs => if c = byteOrderMark then cs else c :: cs

def decode (d : TextDecoder) (bytes : List UInt8) : TextDecoder × List Char :=
  let r := Utf8.feed d.pending bytes
  ({ pending := r.2, begun := d.begun || !r.1.isEmpty }, if d.begun then r.1 else dropMark r.1)

/-- The output for successive chunks. -/
def decodeAll : TextDecoder → List (List UInt8) → List Char
  | _, [] => []
  | d, ch :: chunks => (d.decode ch).2 ++ decodeAll (d.decode ch).1 chunks

theorem decodeAll_begun {d : TextDecoder} (h : d.begun = true) (chunks : List (List UInt8)) :
    decodeAll d chunks = (Utf8.feed d.pending chunks.flatten).1 := by
  induction chunks generalizing d with
  | nil => rfl
  | cons ch chunks ih =>
    rw [decodeAll, ih (by simp [decode, h]), List.flatten_cons, Utf8.feed_append]
    simp [decode, h]

theorem dropMark_append {cs : List Char} (h : cs ≠ []) (ds : List Char) :
    dropMark (cs ++ ds) = dropMark cs ++ ds := by
  cases cs with
  | nil => exact absurd rfl h
  | cons c cs =>
    simp only [List.cons_append, dropMark]
    split <;> rfl

theorem decodeAll_fresh {d : TextDecoder} (h : d.begun = false) (chunks : List (List UInt8)) :
    decodeAll d chunks = dropMark (Utf8.feed d.pending chunks.flatten).1 := by
  induction chunks generalizing d with
  | nil => rfl
  | cons ch chunks ih =>
    rw [decodeAll, List.flatten_cons, Utf8.feed_append]
    by_cases hempty : (Utf8.feed d.pending ch).1 = []
    · rw [ih (by simp [decode, h, hempty])]
      simp [decode, h, hempty, dropMark]
    · rw [decodeAll_begun (by simp [decode, hempty]), dropMark_append hempty]
      simp [decode, h]

end TextDecoder

/-- However the bytes of a text are cut into chunks, a new decoder gives the text. -/
theorem decodeAll_eq {text : List Char} (hmark : ∀ c ∈ text.head?, c ≠ byteOrderMark)
    {chunks : List (List UInt8)} (h : chunks.flatten = Utf8.encode text) :
    TextDecoder.new.decodeAll chunks = text := by
  rw [TextDecoder.decodeAll_fresh rfl, h]
  show TextDecoder.dropMark (Utf8.feed none (Utf8.encode text)).1 = text
  rw [Utf8.feed_encode]
  cases text with
  | nil => rfl
  | cons c text => exact if_neg (hmark c rfl)

/-! ## Frames -/

/-- `split('\n\n')`: the pieces that a blank line ends, and the unfinished one behind them. -/
def frames : List Char → List (List Char) × List Char
  | [] => ([], [])
  | [c] => ([], [c])
  | c :: d :: cs =>
    if c = '\n' ∧ d = '\n' then ([] :: (frames cs).1, (frames cs).2)
    else
      match frames (d :: cs) with
      | ([], rest) => ([], c :: rest)
      | (f :: fs, rest) => ((c :: f) :: fs, rest)

/-- Text in front of the first piece. -/
def prepend (xs : List Char) : List (List Char) × List Char → List (List Char) × List Char
  | ([], rest) => ([], xs ++ rest)
  | (f :: fs, rest) => ((xs ++ f) :: fs, rest)

theorem prepend_prepend (xs ys : List Char) (r : List (List Char) × List Char) :
    prepend xs (prepend ys r) = prepend (xs ++ ys) r := by
  obtain ⟨fs, rest⟩ := r
  cases fs <;> simp [prepend]

theorem prepend_nil (r : List (List Char) × List Char) : prepend [] r = r := by
  obtain ⟨fs, rest⟩ := r
  cases fs <;> rfl

theorem frames_blank (cs : List Char) :
    frames ('\n' :: '\n' :: cs) = ([] :: (frames cs).1, (frames cs).2) := by
  simp [frames]

theorem frames_cons_cons {c d : Char} (h : ¬ (c = '\n' ∧ d = '\n')) (cs : List Char) :
    frames (c :: d :: cs) = prepend [c] (frames (d :: cs)) := by
  rw [frames, if_neg h]
  obtain ⟨fs, rest⟩ := frames (d :: cs)
  cases fs <;> rfl

theorem frames_cons {c : Char} (h : c ≠ '\n') (cs : List Char) :
    frames (c :: cs) = prepend [c] (frames cs) := by
  cases cs with
  | nil => rfl
  | cons d cs => exact frames_cons_cons (fun hcd => h hcd.1) cs

/-- A stretch without newline belongs to the piece that follows. -/
theorem frames_line {l : List Char} (h : ∀ c ∈ l, c ≠ '\n') (cs : List Char) :
    frames (l ++ cs) = prepend l (frames cs) := by
  induction l with
  | nil =>
    rw [List.nil_append, prepend_nil]
  | cons c l ih =>
    rw [List.cons_append, frames_cons (h c List.mem_cons_self),
      ih fun d hd => h d (List.mem_cons_of_mem _ hd), prepend_prepend]
    rfl

/-- Without a finished piece, nothing has been taken off. -/
theorem frames_rest {cs : List Char} (h : (frames cs).1 = []) : (frames cs).2 = cs := by
  fun_induction frames cs with
  | case1 => rfl
  | case2 c => rfl
  | case3 c d cs hcd ih => simp at h
  | case4 c d cs hcd rest hf ih =>
    rw [hf] at ih
    exact congrArg (c :: ·) (ih rfl)
  | case5 c d cs hcd f fs rest hf ih => simp at h

/-- Cut what has come, keep the unfinished piece and put what comes next behind it: that is cutting
everything at once. -/
theorem frames_append (xs ys : List Char) :
    frames (xs ++ ys) =
      ((frames xs).1 ++ (frames ((frames xs).2 ++ ys)).1, (frames ((frames xs).2 ++ ys)).2) := by
  induction xs using frames.induct with
  | case1 => rfl
  | case2 c => rfl
  | case3 c d cs hcd ih =>
    obtain ⟨rfl, rfl⟩ := hcd
    rw [List.cons_append, List.cons_append, frames_blank, frames_blank, ih]
    rfl
  | case4 c d cs hcd rest hf ih =>
    have hrest : (frames (d :: cs)).2 = d :: cs := frames_rest (by rw [hf])
    have hnone : frames (c :: d :: cs) = ([], c :: d :: cs) := by
      rw [frames_cons_cons hcd, hf]
      rw [hf] at hrest
      rw [← hrest]
      rfl
    rw [hnone]
    rfl
  | case5 c d cs hcd f fs rest hf ih =>
    rw [List.cons_append, List.cons_append, frames_cons_cons hcd, frames_cons_cons hcd,
      ← List.cons_append, ih, hf]
    rfl

/-- The unfinished piece holds no finished one. -/
theorem frames_rest_done (cs : List Char) : (frames (frames cs).2).1 = [] := by
  fun_induction frames cs with
  | case1 => rfl
  | case2 c => rfl
  | case3 c d cs hcd ih => exact ih
  | case4 c d cs hcd rest hf ih =>
    have hrest : (frames (d :: cs)).2 = d :: cs := frames_rest (by rw [hf])
    rw [hf] at hrest
    subst hrest
    rw [frames_cons_cons hcd, hf]
    rfl
  | case5 c d cs hcd f fs rest hf ih =>
    rw [hf] at ih
    exact ih

/-! ## Fields of a frame -/

/-- What a dot does not match, and what `^` and `$` take for the end of a line. -/
def isLineTerminator (c : Char) : Bool :=
  c = '\n' ∨ c = '\r' ∨ c = Char.ofNat 0x2028 ∨ c = Char.ofNat 0x2029

def lines (s : List Char) : List (List Char) :=
  (Lines.split isLineTerminator s).1 ++ [(Lines.split isLineTerminator s).2]

/-- The value on a line `name: value`, if it is one. -/
def valueOf (name line : List Char) : Option (List Char) :=
  let start := name ++ [':', ' ']
  if start.isPrefixOf line ∧ line.drop start.length ≠ [] then some (line.drop start.length) else none

/-- White space and line terminators. -/
def isSpace (c : Char) : Bool :=
  let n := c.toNat
  (9 ≤ n ∧ n ≤ 13) ∨ n = 0x20 ∨ n = 0xA0 ∨ n = 0x1680 ∨ (0x2000 ≤ n ∧ n ≤ 0x200A) ∨ n = 0x2028 ∨
    n = 0x2029 ∨ n = 0x202F ∨ n = 0x205F ∨ n = 0x3000 ∨ n = 0xFEFF

def trim (s : List Char) : List Char := (s.dropWhile isSpace).rdropWhile isSpace

/-- `match(/^name: (.+)$/m)?.[1]?.trim()` -/
def fieldOf (name frame : List Char) : Option (List Char) :=
  ((lines frame).findSome? (valueOf name)).map trim

theorem valueOf_append {name value : List Char} (h : value ≠ []) :
    valueOf name (name ++ [':', ' '] ++ value) = some value := by
  simp [valueOf, h]

theorem lines_cons {l : List Char} (h : ∀ c ∈ l, isLineTerminator c = false) {t : Char}
    (ht : isLineTerminator t = true) (rest : List Char) : lines (l ++ t :: rest) = l :: lines rest := by
  rw [lines, Lines.split_segment h ht]
  rfl

theorem lines_single {l : List Char} (h : ∀ c ∈ l, isLineTerminator c = false) : lines l = [l] := by
  rw [lines, Lines.split_rest h]
  rfl

/-- Trimming takes space off both ends; off the front only if there is some. -/
theorem trim_eq_append {c : Char} (hc : isSpace c = false) (s : List Char) :
    ∃ gone, c :: s = trim (c :: s) ++ gone ∧ ∀ d ∈ gone, isSpace d = true := by
  have hfront : (c :: s).dropWhile isSpace = c :: s := by simp [hc]
  refine ⟨((c :: s).reverse.takeWhile isSpace).reverse, ?_, ?_⟩
  · rw [trim, hfront, List.rdropWhile, ← List.reverse_append, List.takeWhile_append_dropWhile,
      List.reverse_reverse]
  · intro d hd
    exact List.mem_takeWhile_imp (List.mem_reverse.1 hd)

theorem trim_eq_self {s : List Char} (hfront : ∀ c ∈ s.head?, isSpace c = false)
    (hback : ∀ c ∈ s.getLast?, isSpace c = false) : trim s = s := by
  cases s with
  | nil => rfl
  | cons c s =>
    have hdrop : (c :: s).dropWhile isSpace = c :: s := by simp [hfront c rfl]
    rw [trim, hdrop, List.rdropWhile_eq_self_iff]
    intro hne
    have hlast := hback _ (List.getLast?_eq_some_getLast hne)
    simp [hlast]

end Js
