import Mathlib.Data.List.Chain
import Mathlib.Tactic.IntervalCases
import OhMyClaw.Lib.Steps

/-!
# JSON texts

A text is read in two passes.  `Lexer` turns characters into tokens, one character a step, and
`Reader` turns tokens into a value, one token a step; its states are what may come next.
`render` is the compact serialiser: the tokens of a value, one behind the other, with the short
escapes where there are any and everything from U+007F on as it is.

    parse_render      reading what was rendered gives the value back
    parse_cut         a text that breaks off inside a string is refused

A number is kept as its literal.  An escape that stands for half of a surrogate pair, which no
serialiser of Unicode strings writes, is refused.
-/

namespace Json

/-! ## Number literals -/

/-- How far a number literal has come. -/
inductive NumState where
  | start | minus | zero | int | point | frac | exp | expSign | expDigits
deriving DecidableEq, Repr

def isDigit (c : Char) : Bool := '0' ≤ c ∧ c ≤ '9'

def isExp (c : Char) : Bool := c = 'e' ∨ c = 'E'

def NumState.step : NumState → Char → Option NumState
  | .start, c => if c = '-' then some .minus else if c = '0' then some .zero
      else if isDigit c then some .int else none
  | .minus, c => if c = '0' then some .zero else if isDigit c then some .int else none
  | .zero, c => if c = '.' then some .point else if isExp c then some .exp else none
  | .int, c => if isDigit c then some .int else if c = '.' then some .point
      else if isExp c then some .exp else none
  | .point, c => if isDigit c then some .frac else none
  | .frac, c => if isDigit c then some .frac else if isExp c then some .exp else none
  | .exp, c => if c = '+' ∨ c = '-' then some .expSign else if isDigit c then some .expDigits else none
  | .expSign, c => if isDigit c then some .expDigits else none
  | .expDigits, c => if isDigit c then some .expDigits else none

def NumState.complete : NumState → Bool
  | .zero => true
  | .int => true
  | .frac => true
  | .expDigits => true
  | _ => false

def isNumber (s : List Char) : Bool := (Steps.exec NumState.step .start s).any NumState.complete

structure Number where
  literal : List Char
  valid : isNumber literal = true
deriving DecidableEq, Repr

end Json

/-! ## Values and tokens -/

inductive Json where
  | null
  | bool (b : Bool)
  | num (n : Json.Number)
  | str (s : String)
  | arr (items : List Json)
  | obj (members : List (String × Json))
deriving Repr

namespace Json

/-- To show something of every value, show it of an array from its items and of an object from its
members. -/
theorem induction {P : Json → Prop} (null : P .null) (bool : ∀ b, P (.bool b)) (num : ∀ n, P (.num n))
    (str : ∀ s, P (.str s)) (arr : ∀ items, (∀ j ∈ items, P j) → P (.arr items))
    (obj : ∀ members, (∀ m ∈ members, P m.2) → P (.obj members)) : ∀ j, P j
  | .null => null
  | .bool b => bool b
  | .num n => num n
  | .str s => str s
  | .arr items => arr items fun j _ => induction null bool num str arr obj j
  | .obj members => obj members fun m _ => induction null bool num str arr obj m.2
decreasing_by
  · have := List.sizeOf_lt_of_mem ‹_ ∈ items›
    simp only [Json.arr.sizeOf_spec]
    omega
  · have := List.sizeOf_lt_of_mem ‹_ ∈ members›
    obtain ⟨key, value⟩ := m
    simp only [Prod.mk.sizeOf_spec] at this
    simp only [Json.obj.sizeOf_spec]
    omega

/-- `word` is a name or a number; which one, and whether it is one, is for the reader to say. -/
inductive Token where
  | beginObject | endObject | beginArray | endArray | colon | comma
  | str (s : String)
  | word (w : List Char)
deriving DecidableEq, Repr

mutual

/-- The tokens of a value. -/
def tokens : Json → List Token
  | .null => [.word ['n', 'u', 'l', 'l']]
  | .bool true => [.word ['t', 'r', 'u', 'e']]
  | .bool false => [.word ['f', 'a', 'l', 's', 'e']]
  | .num n => [.word n.literal]
  | .str s => [.str s]
  | .arr [] => [.beginArray, .endArray]
  | .arr (j :: js) => .beginArray :: (tokens j ++ moreItems js)
  | .obj [] => [.beginObject, .endObject]
  | .obj (m :: ms) => .beginObject :: .str m.1 :: .colon :: (tokens m.2 ++ moreMembers ms)

def moreItems : List Json → List Token
  | [] => [.endArray]
  | j :: js => .comma :: (tokens j ++ moreItems js)

def moreMembers : List (String × Json) → List Token
  | [] => [.endObject]
  | m :: ms => .comma :: .str m.1 :: .colon :: (tokens m.2 ++ moreMembers ms)

end

/-! ## From tokens to a value -/

/-- An array or object under way: what it holds so far, and the key a value is read for. -/
inductive Open where
  | arr (items : List Json)
  | obj (members : List (String × Json)) (key : String)
deriving Repr

/-- What may come next, inside of what is under way: a value, the first item or the end of an
array, the first key or the end of an object, a further key, a colon, or what follows `j`. -/
inductive Reader where
  | value (stack : List Open)
  | item (stack : List Open)
  | member (stack : List Open)
  | key (members : List (String × Json)) (stack : List Open)
  | colon (members : List (String × Json)) (key : String) (stack : List Open)
  | after (j : Json) (stack : List Open)
deriving Repr

namespace Reader

def word (w : List Char) : Option Json :=
  if w = ['n', 'u', 'l', 'l'] then some .null
  else if w = ['t', 'r', 'u', 'e'] then some (.bool true)
  else if w = ['f', 'a', 'l', 's', 'e'] then some (.bool false)
  else if h : isNumber w = true then some (.num ⟨w, h⟩)
  else none

def start (stack : List Open) : Token → Option Reader
  | .beginArray => some (.item stack)
  | .beginObject => some (.member stack)
  | .str s => some (.after (.str s) stack)
  | .word w => (word w).map (.after · stack)
  | _ => none

def step : Reader → Token → Option Reader
  | .value stack, t => start stack t
  | .item stack, .endArray => some (.after (.arr []) stack)
  | .item stack, t => start (.arr [] :: stack) t
  | .member stack, .endObject => some (.after (.obj []) stack)
  | .member stack, .str k => some (.colon [] k stack)
  | .key ms stack, .str k => some (.colon ms k stack)
  | .colon ms k stack, .colon => some (.value (.obj ms k :: stack))
  | .after j (.arr items :: stack), .comma => some (.value (.arr (items ++ [j]) :: stack))
  | .after j (.arr items :: stack), .endArray => some (.after (.arr (items ++ [j])) stack)
  | .after j (.obj ms k :: stack), .comma => some (.key (ms ++ [(k, j)]) stack)
  | .after j (.obj ms k :: stack), .endObject => some (.after (.obj (ms ++ [(k, j)])) stack)
  | _, _ => none

end Reader

/-- The value a list of tokens stands for. -/
def read (ts : List Token) : Option Json :=
  match Steps.exec Reader.step (.value []) ts with
  | some (.after j []) => some j
  | _ => none

/-! ## From characters to tokens -/

def isWhitespace (c : Char) : Bool := c = ' ' ∨ c = '\t' ∨ c = '\n' ∨ c = '\r'

def isWordChar (c : Char) : Bool :=
  isDigit c ∨ ('a' ≤ c ∧ c ≤ 'z') ∨ ('A' ≤ c ∧ c ≤ 'Z') ∨ c = '+' ∨ c = '-' ∨ c = '.'

def punctuation : Char → Option Token
  | '{' => some .beginObject
  | '}' => some .endObject
  | '[' => some .beginArray
  | ']' => some .endArray
  | ':' => some .colon
  | ',' => some .comma
  | _ => none

/-- The character a one-letter escape stands for. -/
def unescape : Char → Option Char
  | '"' => some '"'
  | '\\' => some '\\'
  | '/' => some '/'
  | 'b' => some '\x08'
  | 'f' => some '\x0c'
  | 'n' => some '\n'
  | 'r' => some '\r'
  | 't' => some '\t'
  | _ => none

def hexValue (c : Char) : Option Nat :=
  if isDigit c then some (c.toNat - 0x30)
  else if 'a' ≤ c ∧ c ≤ 'f' then some (c.toNat - 0x61 + 10)
  else if 'A' ≤ c ∧ c ≤ 'F' then some (c.toNat - 0x41 + 10)
  else none

/-- Between two tokens, in a string, behind a backslash, behind `count` digits of a numeric escape,
in a word. -/
inductive Lexer where
  | gap
  | str (acc : List Char)
  | esc (acc : List Char)
  | hex (acc : List Char) (value count : Nat)
  | word (acc : List Char)
deriving DecidableEq, Repr

namespace Lexer

def begin (c : Char) : Option (List Token × Lexer) :=
  if isWhitespace c then some ([], .gap)
  else if c = '"' then some ([], .str [])
  else if isWordChar c then some ([], .word [c])
  else (punctuation c).map fun t => ([t], .gap)

def step : Lexer → Char → Option (List Token × Lexer)
  | .gap, c => begin c
  | .str acc, c =>
    if c = '"' then some ([.str (String.ofList acc)], .gap)
    else if c = '\\' then some ([], .esc acc)
    else if c.toNat < 0x20 then none
    else some ([], .str (acc ++ [c]))
  | .esc acc, c =>
    if c = 'u' then some ([], .hex acc 0 0)
    else (unescape c).map fun d => ([], .str (acc ++ [d]))
  | .hex acc value count, c =>
    (hexValue c).bind fun d =>
      let value := value * 16 + d
      if count < 3 then some ([], .hex acc value (count + 1))
      else if value.isValidChar then some ([], .str (acc ++ [Char.ofNat value]))
      else none
  | .word acc, c =>
    if isWordChar c then some ([], .word (acc ++ [c]))
    else (begin c).map fun r => (.word acc :: r.1, r.2)

def run : Lexer → List Char → Option (List Token × Lexer)
  | s, [] => some ([], s)
  | s, c :: cs => (step s c).bind fun r => (run r.2 cs).map fun t => (r.1 ++ t.1, t.2)

/-- The end of the text. -/
def finish : Lexer → Option (List Token)
  | .gap => some []
  | .word acc => some [.word acc]
  | _ => none

end Lexer

/-- The tokens of the text `cs`, read from `s` on. -/
def lex (s : Lexer) (cs : List Char) : Option (List Token) :=
  (s.run cs).bind fun r => r.2.finish.map (r.1 ++ ·)

def parse (text : List Char) : Option Json := (lex .gap text).bind read

/-! ## Writing -/

def hexDigit (n : Nat) : Char := if n < 10 then Char.ofNat (0x30 + n) else Char.ofNat (0x61 + (n - 10))

/-- A character of a string, escaped where JSON asks for it. -/
def escape (c : Char) : List Char :=
  if c = '"' then ['\\', '"']
  else if c = '\\' then ['\\', '\\']
  else if c = '\x08' then ['\\', 'b']
  else if c = '\t' then ['\\', 't']
  else if c = '\n' then ['\\', 'n']
  else if c = '\x0c' then ['\\', 'f']
  else if c = '\r' then ['\\', 'r']
  else if c.toNat < 0x20 then ['\\', 'u', '0', '0', hexDigit (c.toNat / 16), hexDigit (c.toNat % 16)]
  else [c]

def Token.text : Token → List Char
  | .beginObject => ['{']
  | .endObject => ['}']
  | .beginArray => ['[']
  | .endArray => [']']
  | .colon => [':']
  | .comma => [',']
  | .str s => '"' :: (s.toList.flatMap escape ++ ['"'])
  | .word w => w

def render (j : Json) : List Char := (tokens j).flatMap Token.text

/-! ## Words -/

theorem isWordChar_of_step {st st' : NumState} {c : Char} (h : st.step c = some st') :
    isWordChar c = true := by
  have hzero : isDigit '0' = true := rfl
  have hcases : isDigit c = true ∨ c = '+' ∨ c = '-' ∨ c = '.' ∨ c = 'e' ∨ c = 'E' := by
    cases st <;> simp only [NumState.step, isExp, decide_eq_true_eq] at h <;> grind
  rcases hcases with hd | rfl | rfl | rfl | rfl | rfl
  · simp [isWordChar, hd]
  all_goals rfl

theorem isWordChar_of_exec {st st' : NumState} {s : List Char}
    (h : Steps.exec NumState.step st s = some st') : ∀ c ∈ s, isWordChar c = true := by
  induction s generalizing st with
  | nil => simp
  | cons d s ih =>
    obtain ⟨mid, hd, hrest⟩ := Steps.exec_cons_eq_some.1 h
    intro c hc
    rcases List.mem_cons.1 hc with rfl | hc
    · exact isWordChar_of_step hd
    · exact ih hrest c hc

/-- A text the lexer takes for one word. -/
def IsWord (w : List Char) : Prop := w ≠ [] ∧ ∀ c ∈ w, isWordChar c = true

theorem Number.isWord (n : Number) : IsWord n.literal := by
  have hvalid := n.valid
  unfold isNumber at hvalid
  cases hrun : Steps.exec NumState.step .start n.literal with
  | none => simp [hrun] at hvalid
  | some st =>
    refine ⟨?_, isWordChar_of_exec hrun⟩
    intro hnil
    rw [hnil, Steps.exec_nil, Option.some.injEq] at hrun
    subst hrun
    simp [hnil, NumState.complete] at hvalid

theorem Number.literal_ne (n : Number) {w : List Char} (h : isNumber w = false) : n.literal ≠ w := by
  intro hw
  have hvalid := n.valid
  rw [hw, h] at hvalid
  simp at hvalid

theorem word_number (n : Number) : Reader.word n.literal = some (.num n) := by
  have hnull : n.literal ≠ ['n', 'u', 'l', 'l'] := n.literal_ne rfl
  have htrue : n.literal ≠ ['t', 'r', 'u', 'e'] := n.literal_ne rfl
  have hfalse : n.literal ≠ ['f', 'a', 'l', 's', 'e'] := n.literal_ne rfl
  simp [Reader.word, hnull, htrue, hfalse, n.valid]

theorem exec_toDigits {st : NumState} (hst : st = .start ∨ st = .minus) {n : Nat} (h : 0 < n) :
    Steps.exec NumState.step st (Nat.toDigits 10 n) = some .int := by
  induction n using Nat.strong_induction_on with
  | _ n ih =>
    by_cases hlt : n < 10
    · rw [Nat.toDigits_of_lt_base hlt]
      rcases hst with rfl | rfl <;> interval_cases n <;> rfl
    · have hdigit : NumState.step .int (Nat.digitChar (n % 10)) = some .int := by
        have hall : ∀ d < 10, NumState.step .int (Nat.digitChar d) = some .int := by decide
        exact hall _ (Nat.mod_lt _ (by decide))
      rw [Nat.toDigits_of_base_le (by decide) (by omega), Steps.exec_append, ih (n / 10) (by omega) (by omega),
        Option.bind_some, Steps.exec_cons_some hdigit, Steps.exec_nil]

/-- A natural number in decimal. -/
def Number.ofNat (n : Nat) : Number where
  literal := Nat.toDigits 10 n
  valid := by
    rcases Nat.eq_zero_or_pos n with rfl | hpos
    · rfl
    · rw [isNumber, exec_toDigits (Or.inl rfl) hpos]
      rfl

/-- An integer in decimal. -/
def Number.ofInt : Int → Number
  | .ofNat n => .ofNat n
  | .negSucc n =>
    { literal := '-' :: Nat.toDigits 10 (n + 1)
      valid := by
        rw [isNumber, Steps.exec_cons_some rfl, exec_toDigits (Or.inr rfl) (Nat.succ_pos n)]
        rfl }

/-! ## Reading the tokens of a value -/

theorem tokens_eq_cons (j : Json) : ∃ t ts, tokens j = t :: ts ∧ t ≠ .endArray := by
  cases j with
  | null => exact ⟨_, _, rfl, by simp⟩
  | bool b => cases b <;> exact ⟨_, _, rfl, by simp⟩
  | num n => exact ⟨_, _, rfl, by simp⟩
  | str s => exact ⟨_, _, rfl, by simp⟩
  | arr items => cases items <;> exact ⟨_, _, rfl, by simp⟩
  | obj members => cases members <;> exact ⟨_, _, rfl, by simp⟩

/-- Behind an opening bracket, a value is read as the first item. -/
theorem exec_item (j : Json) (stack : List Open) (rest : List Token) :
    Steps.exec Reader.step (.item stack) (tokens j ++ rest) =
      Steps.exec Reader.step (.value (.arr [] :: stack)) (tokens j ++ rest) := by
  obtain ⟨t, ts, htokens, hne⟩ := tokens_eq_cons j
  have hstep : Reader.step (.item stack) t = Reader.step (.value (.arr [] :: stack)) t := by
    cases t <;> first | rfl | exact absurd rfl hne
  rw [htokens, List.cons_append, Steps.exec, Steps.exec, hstep]

theorem exec_moreItems {js : List Json}
    (h : ∀ j ∈ js, ∀ stack, Steps.exec Reader.step (.value stack) (tokens j) = some (.after j stack))
    (j : Json) (items : List Json) (stack : List Open) :
    Steps.exec Reader.step (.after j (.arr items :: stack)) (moreItems js) =
      some (.after (.arr (items ++ j :: js)) stack) := by
  induction js generalizing j items with
  | nil => rfl
  | cons j' js ih =>
    have hj' := h j' List.mem_cons_self
    rw [moreItems, Steps.exec_cons_some rfl, Steps.exec_append, hj', Option.bind_some,
      ih fun x hx => h x (List.mem_cons_of_mem _ hx)]
    simp

theorem exec_moreMembers {ms : List (String × Json)}
    (h : ∀ m ∈ ms, ∀ stack,
      Steps.exec Reader.step (.value stack) (tokens m.2) = some (.after m.2 stack))
    (m : String × Json) (members : List (String × Json)) (stack : List Open) :
    Steps.exec Reader.step (.after m.2 (.obj members m.1 :: stack)) (moreMembers ms) =
      some (.after (.obj (members ++ m :: ms)) stack) := by
  induction ms generalizing m members with
  | nil => rfl
  | cons m' ms ih =>
    have hm' := h m' List.mem_cons_self
    rw [moreMembers, Steps.exec_cons_some rfl, Steps.exec_cons_some rfl, Steps.exec_cons_some rfl,
      Steps.exec_append, hm', Option.bind_some, ih fun x hx => h x (List.mem_cons_of_mem _ hx)]
    simp

theorem exec_tokens (j : Json) (stack : List Open) :
    Steps.exec Reader.step (.value stack) (tokens j) = some (.after j stack) := by
  induction j using Json.induction generalizing stack with
  | null => rfl
  | bool b => cases b <;> rfl
  | num n =>
    have hstep : Reader.step (.value stack) (.word n.literal) = some (.after (.num n) stack) := by
      simp [Reader.step, Reader.start, word_number]
    rw [tokens, Steps.exec_cons_some hstep, Steps.exec_nil]
  | str s => rfl
  | arr items ih =>
    cases items with
    | nil => rfl
    | cons j js =>
      have hj := ih j List.mem_cons_self
      rw [tokens, Steps.exec_cons_some rfl, exec_item, Steps.exec_append, hj, Option.bind_some,
        exec_moreItems fun x hx => ih x (List.mem_cons_of_mem _ hx)]
      rfl
  | obj members ih =>
    cases members with
    | nil => rfl
    | cons m ms =>
      have hm := ih m List.mem_cons_self
      rw [tokens, Steps.exec_cons_some rfl, Steps.exec_cons_some rfl, Steps.exec_cons_some rfl,
        Steps.exec_append, hm, Option.bind_some,
        exec_moreMembers fun x hx => ih x (List.mem_cons_of_mem _ hx)]
      rfl

theorem read_tokens (j : Json) : read (tokens j) = some j := by
  rw [read, exec_tokens]

/-! ## Reading the characters of a token -/

theorem run_append (s : Lexer) (xs ys : List Char) :
    s.run (xs ++ ys) = (s.run xs).bind fun r => (r.2.run ys).map fun t => (r.1 ++ t.1, t.2) := by
  induction xs generalizing s with
  | nil => simp [Lexer.run]
  | cons x xs ih =>
    simp only [List.cons_append, Lexer.run]
    cases s.step x with
    | none => rfl
    | some r =>
      simp only [Option.bind_some, ih]
      cases r.2.run xs with
      | none => rfl
      | some t =>
        simp only [Option.bind_some, Option.map_some]
        cases t.2.run ys with
        | none => rfl
        | some u => simp

/-- Text behind text the lexer has run through. -/
theorem lex_append {s s' : Lexer} {xs : List Char} {ts : List Token} (h : s.run xs = some (ts, s'))
    (ys : List Char) : lex s (xs ++ ys) = (lex s' ys).map (ts ++ ·) := by
  simp only [lex, run_append, h, Option.bind_some]
  cases s'.run ys with
  | none => rfl
  | some t =>
    simp only [Option.map_some, Option.bind_some]
    cases t.2.finish with
    | none => rfl
    | some us => simp

theorem run_cons {s s' : Lexer} {c : Char} {ts : List Token} (h : s.step c = some (ts, s')) :
    s.run [c] = some (ts, s') := by
  simp [Lexer.run, h]

theorem escape_eq_self {c : Char} (hcontrol : ¬ c.toNat < 0x20) (hquote : c ≠ '"') (hbackslash : c ≠ '\\') :
    escape c = [c] := by
  have hne : ∀ d : Char, d.toNat < 0x20 → c ≠ d := by
    rintro d hd rfl
    exact hcontrol hd
  simp only [escape, hquote, hbackslash, hcontrol, if_false, hne '\x08' (by decide), hne '\t' (by decide),
    hne '\n' (by decide), hne '\x0c' (by decide), hne '\r' (by decide)]

/-- An escaped character is read as itself. -/
theorem run_escape (acc : List Char) (c : Char) :
    (Lexer.str acc).run (escape c) = some ([], .str (acc ++ [c])) := by
  by_cases hcontrol : c.toNat < 0x20
  · obtain ⟨n, hn, rfl⟩ : ∃ n, n < 0x20 ∧ c = Char.ofNat n := ⟨_, hcontrol, (Char.ofNat_toNat c).symm⟩
    interval_cases n <;> rfl
  by_cases hquote : c = '"'
  · subst hquote
    rfl
  by_cases hbackslash : c = '\\'
  · subst hbackslash
    rfl
  rw [escape_eq_self hcontrol hquote hbackslash]
  exact run_cons (by simp [Lexer.step, hquote, hbackslash, hcontrol])

theorem run_escaped (acc cs : List Char) :
    (Lexer.str acc).run (cs.flatMap escape) = some ([], .str (acc ++ cs)) := by
  induction cs generalizing acc with
  | nil => simp [Lexer.run]
  | cons c cs ih => simp [run_append, run_escape, ih]

/-- A token that is no word is complete with its last character. -/
theorem run_text {t : Token} (h : ∀ w, t ≠ .word w) : Lexer.gap.run t.text = some ([t], .gap) := by
  cases t with
  | str s =>
    have hopen : Lexer.gap.run ['"'] = some ([], .str []) := rfl
    have hclose : (Lexer.str s.toList).run ['"'] = some ([.str s], .gap) := by
      simp [Lexer.run, Lexer.step]
    show Lexer.gap.run (['"'] ++ (s.toList.flatMap escape ++ ['"'])) = _
    rw [run_append, hopen, Option.bind_some, run_append, run_escaped, Option.bind_some, List.nil_append,
      hclose]
    rfl
  | word w => exact absurd rfl (h w)
  | _ => rfl

theorem run_word {w : List Char} (h : ∀ c ∈ w, isWordChar c = true) (acc : List Char) :
    (Lexer.word acc).run w = some ([], .word (acc ++ w)) := by
  induction w generalizing acc with
  | nil => simp [Lexer.run]
  | cons c w ih =>
    have hc := h c List.mem_cons_self
    have hw := ih (fun d hd => h d (List.mem_cons_of_mem _ hd)) (acc ++ [c])
    simp [Lexer.run, Lexer.step, hc, hw]

theorem begin_wordChar {c : Char} (h : isWordChar c = true) : Lexer.begin c = some ([], .word [c]) := by
  have hspace : isWhitespace c = false := by
    simp only [isWhitespace, decide_eq_false_iff_not]
    rintro (rfl | rfl | rfl | rfl) <;> simp [isWordChar, isDigit] at h
  have hquote : c ≠ '"' := by
    rintro rfl
    simp [isWordChar, isDigit] at h
  simp [Lexer.begin, hspace, hquote, h]

theorem run_isWord {w : List Char} (h : IsWord w) : Lexer.gap.run w = some ([], .word w) := by
  obtain ⟨hne, hall⟩ := h
  cases w with
  | nil => exact absurd rfl hne
  | cons c w =>
    have hc : Lexer.gap.run [c] = some ([], .word [c]) :=
      run_cons (begin_wordChar (hall c List.mem_cons_self))
    have hw := run_word (fun d hd => hall d (List.mem_cons_of_mem _ hd)) [c]
    show Lexer.gap.run ([c] ++ w) = _
    rw [run_append, hc, Option.bind_some, hw]
    rfl

/-- A word ends where a character follows that is none of its own. -/
theorem lex_word (acc : List Char) {cs : List Char} (h : ∀ c ∈ cs.head?, isWordChar c = false) :
    lex (.word acc) cs = (lex .gap cs).map (.word acc :: ·) := by
  cases cs with
  | nil => rfl
  | cons c cs =>
    have hc : isWordChar c = false := h c rfl
    simp only [lex, Lexer.run, Lexer.step, hc, Bool.false_eq_true, if_false]
    cases Lexer.begin c with
    | none => rfl
    | some r =>
      simp only [Option.map_some, Option.bind_some]
      cases r.2.run cs with
      | none => rfl
      | some t =>
        simp only [Option.map_some, Option.bind_some]
        cases t.2.finish with
        | none => rfl
        | some us => rfl

/-! ## Reading the text of a value -/

def Token.isWord : Token → Bool
  | .word _ => true
  | _ => false

/-- Tokens that can stand one behind the other without space: no two words do. -/
def Apart (ts : List Token) : Prop := ts.IsChain fun a b => a.isWord = false ∨ b.isWord = false

theorem head_text {t : Token} (h : t.isWord = false) {cs : List Char} :
    ∀ c ∈ (t.text ++ cs).head?, isWordChar c = false := by
  intro c hc
  cases t with
  | word w => simp [Token.isWord] at h
  | _ =>
    obtain rfl : _ = c := Option.some.inj hc
    rfl

theorem lex_texts {ts : List Token} (hwords : ∀ w, .word w ∈ ts → IsWord w) (hapart : Apart ts) :
    lex .gap (ts.flatMap Token.text) = some ts := by
  induction ts with
  | nil => rfl
  | cons t ts ih =>
    have hrest := ih (fun w hw => hwords w (List.mem_cons_of_mem _ hw)) (List.IsChain.tail hapart)
    rw [List.flatMap_cons]
    by_cases ht : ∃ w, t = .word w
    · obtain ⟨w, rfl⟩ := ht
      have hnext : ∀ c ∈ (ts.flatMap Token.text).head?, isWordChar c = false := by
        cases ts with
        | nil => simp
        | cons t' ts =>
          rw [List.flatMap_cons]
          rcases (List.isChain_cons_cons.1 hapart).1 with hw | ht'
          · simp [Token.isWord] at hw
          · exact head_text ht'
      have hw := lex_append (run_isWord (hwords w List.mem_cons_self)) (ts.flatMap Token.text)
      show lex .gap (w ++ _) = _
      rw [hw, lex_word w hnext, hrest]
      rfl
    · rw [lex_append (run_text fun w hw => ht ⟨w, hw⟩), hrest]
      rfl

/-- Tokens that read back: their words are words, and none touches the next. -/
structure Legible (ts : List Token) : Prop where
  words : ∀ w, .word w ∈ ts → IsWord w
  apart : Apart ts

theorem Legible.cons {t : Token} (ht : t.isWord = false) {ts : List Token} (h : Legible ts) :
    Legible (t :: ts) := by
  refine ⟨fun w hw => ?_, ?_⟩
  · rcases List.mem_cons.1 hw with rfl | hw
    · simp [Token.isWord] at ht
    · exact h.words w hw
  · cases ts with
    | nil => exact List.isChain_singleton _
    | cons t' ts => exact List.isChain_cons_cons.2 ⟨Or.inl ht, h.apart⟩

/-- Lists of which the second starts with a sign or a string. -/
theorem Legible.append {ts us : List Token} (h : Legible ts) (hus : Legible us)
    (hhead : ∀ u ∈ us.head?, u.isWord = false) : Legible (ts ++ us) := by
  refine ⟨fun w hw => ?_, ?_⟩
  · rcases List.mem_append.1 hw with hw | hw
    · exact h.words w hw
    · exact hus.words w hw
  · exact List.IsChain.append h.apart hus.apart fun a _ b hb => Or.inr (hhead b hb)

theorem legible_singleton {t : Token} (h : ∀ w, t = .word w → IsWord w) : Legible [t] :=
  ⟨fun w hw => h w (List.mem_singleton.1 hw).symm, List.isChain_singleton _⟩

theorem legible_word {w : List Char} (h : IsWord w) : Legible [.word w] :=
  legible_singleton fun w' hw' => by
    obtain rfl := Token.word.inj hw'
    exact h

theorem legible_moreItems {js : List Json} (h : ∀ j ∈ js, Legible (tokens j)) :
    Legible (moreItems js) ∧ ∀ u ∈ (moreItems js).head?, u.isWord = false := by
  induction js with
  | nil => exact ⟨legible_singleton (by simp), by simp [moreItems, Token.isWord]⟩
  | cons j js ih =>
    obtain ⟨hmore, hhead⟩ := ih fun x hx => h x (List.mem_cons_of_mem _ hx)
    exact ⟨.cons rfl ((h j List.mem_cons_self).append hmore hhead), by simp [moreItems, Token.isWord]⟩

theorem legible_moreMembers {ms : List (String × Json)} (h : ∀ m ∈ ms, Legible (tokens m.2)) :
    Legible (moreMembers ms) ∧ ∀ u ∈ (moreMembers ms).head?, u.isWord = false := by
  induction ms with
  | nil => exact ⟨legible_singleton (by simp), by simp [moreMembers, Token.isWord]⟩
  | cons m ms ih =>
    obtain ⟨hmore, hhead⟩ := ih fun x hx => h x (List.mem_cons_of_mem _ hx)
    have hm := (h m List.mem_cons_self).append hmore hhead
    exact ⟨.cons rfl (.cons rfl (.cons rfl hm)), by simp [moreMembers, Token.isWord]⟩

theorem legible_tokens (j : Json) : Legible (tokens j) := by
  induction j using Json.induction with
  | null => exact legible_word ⟨by simp, List.all_eq_true.1 rfl⟩
  | bool b =>
    cases b with
    | false => exact legible_word ⟨by simp, List.all_eq_true.1 rfl⟩
    | true => exact legible_word ⟨by simp, List.all_eq_true.1 rfl⟩
  | num n => exact legible_word n.isWord
  | str s => exact legible_singleton (by simp)
  | arr items ih =>
    cases items with
    | nil => exact .cons rfl (legible_singleton (by simp))
    | cons j js =>
      obtain ⟨hmore, hhead⟩ := legible_moreItems fun x hx => ih x (List.mem_cons_of_mem _ hx)
      exact .cons rfl ((ih j List.mem_cons_self).append hmore hhead)
  | obj members ih =>
    cases members with
    | nil => exact .cons rfl (legible_singleton (by simp))
    | cons m ms =>
      obtain ⟨hmore, hhead⟩ := legible_moreMembers fun x hx => ih x (List.mem_cons_of_mem _ hx)
      exact .cons rfl (.cons rfl (.cons rfl ((ih m List.mem_cons_self).append hmore hhead)))

theorem lex_render (j : Json) : lex .gap (render j) = some (tokens j) :=
  lex_texts (legible_tokens j).words (legible_tokens j).apart

/-- Reading what was rendered gives the value back. -/
theorem parse_render (j : Json) : parse (render j) = some j := by
  rw [parse, lex_render, Option.bind_some, read_tokens]

/-! ## Texts that break off -/

/-- A character that says nothing to the lexer outside of a string. -/
def Foreign (c : Char) : Prop :=
  ∀ s ts s', Lexer.step s c = some (ts, s') → ∃ acc, s = .str acc

/-- A character a string may hold as it is, and that does not bring the lexer into one. -/
def Inert (c : Char) : Prop :=
  ∀ s ts acc, Lexer.step s c = some (ts, .str acc) → ∃ acc', s = .str acc'

theorem Foreign.inert {c : Char} (h : Foreign c) : Inert c :=
  fun s ts acc hstep => h s ts (.str acc) hstep

theorem run_cons_eq_some {s s' : Lexer} {c : Char} {cs : List Char} {ts : List Token}
    (h : s.run (c :: cs) = some (ts, s')) :
    ∃ r t, s.step c = some r ∧ r.2.run cs = some t ∧ t.2 = s' := by
  simp only [Lexer.run] at h
  obtain ⟨r, hr, hrest⟩ := Option.bind_eq_some_iff.1 h
  obtain ⟨t, ht, hs'⟩ := Option.map_eq_some_iff.1 hrest
  exact ⟨r, t, hr, ht, congrArg Prod.snd hs'⟩

/-- Inert characters lead into a string only from inside one. -/
theorem run_inert {w : List Char} (h : ∀ c ∈ w, Inert c) {s : Lexer} {ts : List Token} {acc : List Char}
    (hrun : s.run w = some (ts, .str acc)) : ∃ acc', s = .str acc' := by
  induction w generalizing s ts with
  | nil => exact ⟨acc, (Prod.mk.inj (Option.some.inj hrun)).2⟩
  | cons c w ih =>
    obtain ⟨⟨us, mid⟩, ⟨vs, last⟩, hstep, hrest, rfl⟩ := run_cons_eq_some hrun
    obtain ⟨acc', rfl⟩ := ih (fun d hd => h d (List.mem_cons_of_mem _ hd)) hrest
    exact h c List.mem_cons_self s us acc' hstep

/-- Only the quote leads from between two tokens into a string. -/
theorem begin_ne_str {c : Char} (h : c ≠ '"') {ts : List Token} {acc : List Char} :
    Lexer.begin c ≠ some (ts, .str acc) := by
  unfold Lexer.begin
  rw [if_neg h]
  split
  · simp
  · split
    · simp
    · cases punctuation c <;> simp

theorem inert_of {c : Char} (hquote : c ≠ '"') (hu : c ≠ 'u') (hesc : unescape c = none)
    (hhex : hexValue c = none) : Inert c := by
  intro s ts acc hstep
  cases s with
  | gap => exact absurd hstep (begin_ne_str hquote)
  | str acc' => exact ⟨acc', rfl⟩
  | esc acc' => simp [Lexer.step, hu, hesc] at hstep
  | hex acc' value count => simp [Lexer.step, hhex] at hstep
  | word acc' =>
    simp only [Lexer.step] at hstep
    split at hstep
    · simp at hstep
    · obtain ⟨⟨us, last⟩, hr, hts⟩ := Option.map_eq_some_iff.1 hstep
      obtain ⟨-, rfl⟩ := Prod.mk.inj hts
      exact absurd hr (begin_ne_str hquote)

theorem toNat_ne {c : Char} (h : 0x80 ≤ c.toNat) {d : Char} (hd : d.toNat < 0x80) : c ≠ d := by
  rintro rfl
  omega

theorem isDigit_eq_false {c : Char} (h : 0x80 ≤ c.toNat) : isDigit c = false := by
  have hle : ¬ c ≤ '9' := by
    rw [Char.le_def, UInt32.le_iff_toNat_le]
    show ¬ c.toNat ≤ 57
    omega
  simp [isDigit, hle]

/-- Beyond ASCII nothing is a sign. -/
theorem foreign_of_not_ascii {c : Char} (h : 0x80 ≤ c.toNat) : Foreign c := by
  have hne : ∀ d : Char, d.toNat < 0x80 → c ≠ d := fun d hd => toNat_ne h hd
  have hle : ∀ d : Char, d.toNat < 0x80 → ¬ c ≤ d := by
    intro d hd hcd
    rw [Char.le_def, UInt32.le_iff_toNat_le] at hcd
    change c.toNat ≤ d.toNat at hcd
    omega
  have hspace : isWhitespace c = false := by
    simp [isWhitespace, hne ' ' (by decide), hne '\t' (by decide), hne '\n' (by decide), hne '\r' (by decide)]
  have hword : isWordChar c = false := by
    simp [isWordChar, isDigit_eq_false h, hle 'z' (by decide), hle 'Z' (by decide), hne '+' (by decide),
      hne '-' (by decide), hne '.' (by decide)]
  have hpunct : punctuation c = none := by
    unfold punctuation
    split <;> first | rfl | exact absurd h (by decide)
  have hunescape : unescape c = none := by
    unfold unescape
    split <;> first | rfl | exact absurd h (by decide)
  have hhex : hexValue c = none := by
    simp [hexValue, isDigit_eq_false h, hle 'f' (by decide), hle 'F' (by decide)]
  have hbegin : Lexer.begin c = none := by
    simp [Lexer.begin, hspace, hword, hpunct, hne '"' (by decide)]
  intro s ts s' hstep
  cases s with
  | gap => simp [Lexer.step, hbegin] at hstep
  | str acc => exact ⟨acc, rfl⟩
  | esc acc => simp [Lexer.step, hunescape, hne 'u' (by decide)] at hstep
  | hex acc value count => simp [Lexer.step, hhex] at hstep
  | word acc => simp [Lexer.step, hbegin, hword] at hstep

/-- A text cut in front of a foreign character breaks off inside a string, and is refused; it
makes no difference if inert characters are cut off with it. -/
theorem parse_cut {front gone post : List Char} {c : Char} (hc : Foreign c) (hgone : ∀ d ∈ gone, Inert d)
    (h : (parse (front ++ gone ++ c :: post)).isSome = true) : parse front = none := by
  obtain ⟨j, hj⟩ := Option.isSome_iff_exists.1 h
  obtain ⟨ts, hlex, -⟩ := Option.bind_eq_some_iff.1 hj
  obtain ⟨⟨us, last⟩, hrun, -⟩ := Option.bind_eq_some_iff.1 hlex
  rw [List.append_assoc, run_append] at hrun
  obtain ⟨⟨fs, s⟩, hfront, hrest⟩ := Option.bind_eq_some_iff.1 hrun
  obtain ⟨⟨gs, last'⟩, hgs, -⟩ := Option.map_eq_some_iff.1 hrest
  rw [run_append] at hgs
  obtain ⟨⟨ws, s'⟩, hgone', hpost⟩ := Option.bind_eq_some_iff.1 hgs
  obtain ⟨⟨ps, last''⟩, hps, -⟩ := Option.map_eq_some_iff.1 hpost
  -- the foreign character is read in a string, so the inert ones before it were too
  obtain ⟨⟨r, mid⟩, -, hstep, -, -⟩ := run_cons_eq_some hps
  obtain ⟨acc, rfl⟩ := hc s' r mid hstep
  obtain ⟨acc', rfl⟩ := run_inert hgone hgone'
  simp [parse, lex, hfront, Lexer.finish]

/-! ## The characters of a rendered value -/

def Token.string? : Token → Option String
  | .str s => some s
  | _ => none

/-- The strings of a value, keys included. -/
def strings (j : Json) : List String := (tokens j).filterMap Token.string?

theorem mem_strings {j : Json} {s : String} : s ∈ strings j ↔ .str s ∈ tokens j := by
  unfold strings
  rw [List.mem_filterMap]
  constructor
  · rintro ⟨t, ht, hs⟩
    cases t with
    | str s' =>
      obtain rfl : s' = s := Option.some.inj hs
      exact ht
    | _ => simp [Token.string?] at hs
  · intro h
    exact ⟨.str s, h, rfl⟩

theorem strings_str (s : String) : strings (.str s) = [s] := rfl

theorem strings_moreMembers (ms : List (String × Json)) :
    (moreMembers ms).filterMap Token.string? = ms.flatMap fun m => m.1 :: strings m.2 := by
  induction ms with
  | nil => rfl
  | cons m ms ih =>
    rw [List.flatMap_cons, ← ih]
    show m.1 :: (tokens m.2 ++ moreMembers ms).filterMap Token.string? = _
    rw [List.filterMap_append]
    rfl

theorem strings_obj (ms : List (String × Json)) :
    strings (.obj ms) = ms.flatMap fun m => m.1 :: strings m.2 := by
  cases ms with
  | nil => rfl
  | cons m ms =>
    rw [List.flatMap_cons, ← strings_moreMembers]
    show m.1 :: (tokens m.2 ++ moreMembers ms).filterMap Token.string? = _
    rw [List.filterMap_append]
    rfl

/-- What has to be escaped becomes printable ASCII. -/
theorem escape_printable {d : Char} (h : d.toNat < 0x20 ∨ d = '"' ∨ d = '\\') :
    ∀ c ∈ escape d, 0x20 ≤ c.toNat ∧ c.toNat < 0x80 := by
  have hall : ∀ n < 0x80, n < 0x20 ∨ n = 34 ∨ n = 92 →
      (escape (Char.ofNat n)).all (fun c => 0x20 ≤ c.toNat ∧ c.toNat < 0x80) = true := by
    decide
  have hd : d.toNat < 0x80 ∧ (d.toNat < 0x20 ∨ d.toNat = 34 ∨ d.toNat = 92) := by
    rcases h with hcontrol | rfl | rfl
    · exact ⟨by omega, Or.inl hcontrol⟩
    · decide
    · decide
  have hescape := hall d.toNat hd.1 hd.2
  rw [Char.ofNat_toNat, List.all_eq_true] at hescape
  intro c hc
  exact of_decide_eq_true (hescape c hc)

/-- What escaping makes of a character: itself, or printable ASCII. -/
theorem mem_escape {c d : Char} (h : c ∈ escape d) :
    (c = d ∧ 0x20 ≤ d.toNat) ∨ (0x20 ≤ c.toNat ∧ c.toNat < 0x80) := by
  by_cases hspecial : d.toNat < 0x20 ∨ d = '"' ∨ d = '\\'
  · exact Or.inr (escape_printable hspecial c h)
  · obtain ⟨hcontrol, hquote, hbackslash⟩ := by simpa only [not_or] using hspecial
    rw [escape_eq_self hcontrol hquote hbackslash, List.mem_singleton] at h
    exact Or.inl ⟨h, by omega⟩

theorem mem_escape_of_not_ascii {c d : Char} (h : 0x80 ≤ c.toNat) : c ∈ escape d ↔ c = d := by
  constructor
  · intro hmem
    rcases mem_escape hmem with ⟨rfl, -⟩ | ⟨-, hlt⟩
    · rfl
    · omega
  · rintro rfl
    rw [escape_eq_self (by omega) (toNat_ne h (by decide)) (toNat_ne h (by decide))]
    exact List.mem_singleton_self c

theorem wordChar_ascii {c : Char} (h : isWordChar c = true) : 0x20 ≤ c.toNat ∧ c.toNat < 0x80 := by
  simp only [isWordChar, isDigit, decide_eq_true_eq, Char.le_def, UInt32.le_iff_toNat_le] at h
  rcases h with h | h | h | rfl | rfl | rfl
  · exact ⟨Nat.le_trans (by decide) h.1, Nat.lt_of_le_of_lt h.2 (by decide)⟩
  · exact ⟨Nat.le_trans (by decide) h.1, Nat.lt_of_le_of_lt h.2 (by decide)⟩
  · exact ⟨Nat.le_trans (by decide) h.1, Nat.lt_of_le_of_lt h.2 (by decide)⟩
  · decide
  · decide
  · decide

/-- The characters of a token: printable ASCII, and what its string holds. -/
theorem mem_text {t : Token} (hword : ∀ w, t = .word w → IsWord w) {c : Char} (h : c ∈ t.text) :
    (0x20 ≤ c.toNat ∧ c.toNat < 0x80) ∨ 0x80 ≤ c.toNat ∧ ∃ s, t = .str s ∧ c ∈ s.toList := by
  cases t with
  | word w => exact Or.inl (wordChar_ascii ((hword w rfl).2 c h))
  | str s =>
    simp only [Token.text, List.mem_cons, List.mem_append, List.mem_flatMap, List.not_mem_nil,
      or_false] at h
    rcases h with rfl | ⟨d, hd, hc⟩ | rfl
    · exact Or.inl (by decide)
    · rcases mem_escape hc with ⟨rfl, hge⟩ | ⟨hge, hlt⟩
      · by_cases hascii : c.toNat < 0x80
        · exact Or.inl ⟨hge, hascii⟩
        · exact Or.inr ⟨by omega, s, rfl, hd⟩
      · exact Or.inl ⟨hge, hlt⟩
    · exact Or.inl (by decide)
  | _ =>
    left
    obtain rfl := List.mem_singleton.1 h
    decide

/-- There are no control characters in a rendered value. -/
theorem render_printable {j : Json} {c : Char} (h : c ∈ render j) : 0x20 ≤ c.toNat := by
  obtain ⟨t, ht, hc⟩ := List.mem_flatMap.1 h
  have hword : ∀ w, t = .word w → IsWord w := fun w hw => (legible_tokens j).words w (hw ▸ ht)
  rcases mem_text hword hc with ⟨hge, -⟩ | ⟨hge, -⟩
  · exact hge
  · omega

/-- Beyond ASCII, a rendered value holds what its strings hold. -/
theorem mem_render_of_not_ascii {j : Json} {c : Char} (h : 0x80 ≤ c.toNat) :
    c ∈ render j ↔ ∃ s ∈ strings j, c ∈ s.toList := by
  constructor
  · intro hc
    obtain ⟨t, ht, hc⟩ := List.mem_flatMap.1 hc
    have hword : ∀ w, t = .word w → IsWord w := fun w hw => (legible_tokens j).words w (hw ▸ ht)
    rcases mem_text hword hc with ⟨-, hlt⟩ | ⟨-, s, rfl, hs⟩
    · omega
    · exact ⟨s, mem_strings.2 ht, hs⟩
  · rintro ⟨s, hs, hc⟩
    refine List.mem_flatMap.2 ⟨.str s, mem_strings.1 hs, ?_⟩
    simp only [Token.text, List.mem_cons, List.mem_append, List.mem_flatMap]
    exact Or.inr (Or.inl ⟨c, hc, (mem_escape_of_not_ascii h).2 rfl⟩)

theorem moreMembers_eq_snoc (ms : List (String × Json)) : ∃ ts, moreMembers ms = ts ++ [.endObject] := by
  induction ms with
  | nil => exact ⟨[], rfl⟩
  | cons m ms ih =>
    obtain ⟨ts, hts⟩ := ih
    exact ⟨.comma :: .str m.1 :: .colon :: (tokens m.2 ++ ts), by simp [moreMembers, hts]⟩

/-- An object is rendered between braces. -/
theorem render_obj (ms : List (String × Json)) : ∃ inner, render (.obj ms) = '{' :: (inner ++ ['}']) := by
  have htokens : ∃ ts, tokens (.obj ms) = .beginObject :: (ts ++ [.endObject]) := by
    cases ms with
    | nil => exact ⟨[], rfl⟩
    | cons m ms =>
      obtain ⟨ts, hts⟩ := moreMembers_eq_snoc ms
      exact ⟨.str m.1 :: .colon :: (tokens m.2 ++ ts), by simp [tokens, hts]⟩
  obtain ⟨ts, hts⟩ := htokens
  exact ⟨ts.flatMap Token.text, by simp [render, hts, Token.text]⟩

end Json
