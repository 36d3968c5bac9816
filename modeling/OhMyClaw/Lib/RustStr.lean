import Mathlib.Data.List.DropRight
import Mathlib.Data.List.Infix
import OhMyClaw.Lib.Lines

/-!
# Rust string functions on character lists

The standard library's string operations as they are documented: `str::trim` and its
variants remove characters with the Unicode property `White_Space`, `contains` and
`starts_with` compare character by character.
-/

namespace RustStr

/-- The Unicode property `White_Space`. -/
def isWhitespace (c : Char) : Bool :=
  let n := c.toNat
  (9 ≤ n ∧ n ≤ 13) || n = 32 || n = 0x85 || n = 0xA0 || n = 0x1680 ||
    (0x2000 ≤ n ∧ n ≤ 0x200A) || n = 0x2028 || n = 0x2029 || n = 0x202F || n = 0x205F || n = 0x3000

def trimStart (s : List Char) : List Char := s.dropWhile isWhitespace

def trimEnd (s : List Char) : List Char := s.rdropWhile isWhitespace

def trim (s : List Char) : List Char := trimEnd (trimStart s)

/-- `trim_end_matches` with a single character. -/
def trimEndMatches (c : Char) (s : List Char) : List Char := s.rdropWhile (· = c)

def startsWith (s p : List Char) : Bool := p.isPrefixOf s

def contains (s p : List Char) : Bool := s.tails.any (p.isPrefixOf ·)

theorem startsWith_iff {s p : List Char} : startsWith s p = true ↔ p <+: s := List.isPrefixOf_iff_prefix

theorem contains_iff {s p : List Char} : contains s p = true ↔ p <:+: s := by
  unfold contains
  rw [List.any_eq_true, List.infix_iff_prefix_suffix]
  simp only [List.mem_tails, List.isPrefixOf_iff_prefix]
  exact ⟨fun ⟨t, hsuffix, hprefix⟩ => ⟨t, hprefix, hsuffix⟩, fun ⟨t, hprefix, hsuffix⟩ => ⟨t, hsuffix, hprefix⟩⟩

/-- `str::strip_prefix`. -/
def stripPrefix (s p : List Char) : Option (List Char) :=
  if startsWith s p then some (s.drop p.length) else none

/-- The segments hold no separator. -/
theorem splitOnP_separators {α : Type*} {p : α → Bool} {xs seg : List α} (h : seg ∈ xs.splitOnP p) :
    ∀ x ∈ seg, p x = false := by
  induction xs generalizing seg with
  | nil =>
    rw [List.splitOnP_nil, List.mem_singleton] at h
    simp [h]
  | cons x xs ih =>
    rw [List.splitOnP_cons_eq_if_modifyHead] at h
    split at h
    · rcases List.mem_cons.1 h with rfl | h
      · simp
      · exact ih h
    · next hx =>
      cases hxs : xs.splitOnP p with
      | nil => exact absurd hxs (List.splitOnP_ne_nil p xs)
      | cons head rest =>
        rw [hxs, List.modifyHead_cons] at h
        rcases List.mem_cons.1 h with rfl | h
        · intro y hy
          rcases List.mem_cons.1 hy with rfl | hy
          · simpa using hx
          · exact ih (hxs ▸ List.mem_cons_self) y hy
        · exact ih (hxs ▸ List.mem_cons_of_mem _ h)

/-- `str::lines`: a line ends with a line feed, which a carriage return may stand before, or with
the text. -/
def lines (s : List Char) : List (List Char) :=
  let r := Lines.split (· = '\n') s
  r.1.map (fun l => if l.getLast? = some '\r' then l.dropLast else l) ++ if r.2 = [] then [] else [r.2]

theorem lines_cons {l : List Char} (hl : ∀ c ∈ l, c ≠ '\n' ∧ c ≠ '\r') (rest : List Char) :
    lines (l ++ '\n' :: rest) = l :: lines rest := by
  have hfeed : ∀ c ∈ l, decide (c = '\n') = false := fun c hc => decide_eq_false (hl c hc).1
  have hreturn : l.getLast? ≠ some '\r' := by
    intro h
    exact (hl '\r' (List.mem_of_getLast? h)).2 rfl
  simp only [lines, Lines.split_segment hfeed (decide_eq_true rfl), List.map_cons, if_neg hreturn,
    List.cons_append]

/-- `str::split_once` with a single character. -/
def splitOnce (c : Char) (s : List Char) : Option (List Char × List Char) :=
  if c ∈ s then some (s.takeWhile (· ≠ c), (s.dropWhile (· ≠ c)).drop 1) else none

theorem splitOnce_eq_some {c : Char} {s a b : List Char} :
    splitOnce c s = some (a, b) ↔ s = a ++ c :: b ∧ c ∉ a := by
  constructor
  · intro h
    unfold splitOnce at h
    split at h
    · next hc =>
      obtain ⟨rfl, rfl⟩ := Prod.mk.inj (Option.some.inj h)
      have hnot : c ∉ s.takeWhile (· ≠ c) := fun hmem => by simpa using List.mem_takeWhile_imp hmem
      refine ⟨?_, hnot⟩
      have hsplit : s.takeWhile (· ≠ c) ++ s.dropWhile (· ≠ c) = s := List.takeWhile_append_dropWhile
      cases hdrop : s.dropWhile (· ≠ c) with
      | nil =>
        rw [hdrop, List.append_nil] at hsplit
        rw [hsplit] at hnot
        exact absurd hc hnot
      | cons d rest =>
        have hd : d = c := by
          have := List.head?_dropWhile_not (· ≠ c) s
          rw [hdrop] at this
          simpa using this
        rw [hd] at hdrop
        calc s = s.takeWhile (· ≠ c) ++ s.dropWhile (· ≠ c) := hsplit.symm
          _ = s.takeWhile (· ≠ c) ++ c :: rest := by rw [hdrop]
    · cases h
  · rintro ⟨rfl, hc⟩
    have hall : ∀ d ∈ a, decide (d ≠ c) = true := by
      intro d hd
      rw [decide_eq_true_eq]
      rintro rfl
      exact hc hd
    unfold splitOnce
    rw [if_pos (by simp), List.takeWhile_append_of_pos hall, List.dropWhile_append_of_pos hall]
    simp

theorem splitOnce_eq_none {c : Char} {s : List Char} : splitOnce c s = none ↔ c ∉ s := by
  unfold splitOnce
  split
  · next hc => simp [hc]
  · next hc => simp [hc]

/-- The value of a row of decimal digits. -/
def digitsValue (s : List Char) : Nat := s.foldl (fun n c => 10 * n + (c.toNat - 48)) 0

/-- `str::parse::<u8>`: decimal digits, a plus sign in front allowed. -/
def parseU8 (s : List Char) : Option UInt8 :=
  let digits := if s.head? = some '+' then s.drop 1 else s
  if digits ≠ [] ∧ digits.all Char.isDigit ∧ digitsValue digits < 256 then some (UInt8.ofNat (digitsValue digits))
  else none

/-- A number is written with digits and a plus sign. -/
theorem parseU8_digits {s : List Char} {n : UInt8} (h : parseU8 s = some n) :
    s ≠ [] ∧ ∀ c ∈ s, c.isDigit = true ∨ c = '+' := by
  have hdigits : ∀ {digits : List Char}, digits.all Char.isDigit = true → ∀ c ∈ digits, c.isDigit = true ∨ c = '+' :=
    fun hall c hc => Or.inl (List.all_eq_true.1 hall c hc)
  unfold parseU8 at h
  cases s with
  | nil => cases h
  | cons d tail =>
    refine ⟨by simp, ?_⟩
    by_cases hplus : d = '+'
    · subst hplus
      simp only [List.head?_cons, if_true, List.drop_one, List.tail_cons] at h
      split at h
      · next hs =>
        intro c hc
        rcases List.mem_cons.1 hc with rfl | hc
        · exact Or.inr rfl
        · exact hdigits hs.2.1 c hc
      · cases h
    · simp only [List.head?_cons, Option.some.injEq, if_neg hplus] at h
      split at h
      · next hs => exact hdigits hs.2.1
      · cases h

/-- `str::split_whitespace`: the words between the blanks. -/
def splitWhitespace (s : List Char) : List (List Char) := (s.splitOnP isWhitespace).filter (· ≠ [])

theorem word_of_splitWhitespace {s w : List Char} (h : w ∈ splitWhitespace s) :
    w ≠ [] ∧ ∀ c ∈ w, isWhitespace c = false := by
  obtain ⟨hseg, hne⟩ := List.mem_filter.1 h
  exact ⟨by simpa using hne, splitOnP_separators hseg⟩

/-- What starts and ends with a character that is no blank is its own trim. -/
theorem trim_eq_self {c d : Char} {s : List Char} (hc : isWhitespace c = false) (hd : isWhitespace d = false)
    (hhead : s.head? = some c) (hlast : s.getLast? = some d) : trim s = s := by
  have hstart : trimStart s = s := by
    cases s with
    | nil => rfl
    | cons x xs =>
      obtain rfl : x = c := by simpa using hhead
      simp [trimStart, hc]
  unfold trim trimEnd
  rw [hstart, List.rdropWhile_eq_self_iff]
  intro hne
  rw [List.getLast?_eq_getLast_of_ne_nil hne] at hlast
  rw [Option.some.inj hlast, hd]
  exact Bool.false_ne_true

theorem mem_intercalate {α : Type*} {sep : List α} {ws : List (List α)} {x : α} (h : x ∈ sep.intercalate ws) :
    (∃ w ∈ ws, x ∈ w) ∨ x ∈ sep := by
  induction ws with
  | nil => simp at h
  | cons w ws ih =>
    cases ws with
    | nil => exact Or.inl ⟨w, List.mem_cons_self, by simpa using h⟩
    | cons w' ws =>
      rw [List.intercalate_cons_cons, List.mem_append, List.mem_append] at h
      rcases h with (h | h) | h
      · exact Or.inl ⟨w, List.mem_cons_self, h⟩
      · exact Or.inr h
      · refine (ih h).imp_left fun hv => ?_
        obtain ⟨v, hv, hx⟩ := hv
        exact ⟨v, List.mem_cons_of_mem _ hv, hx⟩

/-- Words joined by single spaces start with the first word and end with the last. -/
theorem ends_of_words {ws : List (List Char)} (hws : ws ≠ []) (hne : ∀ w ∈ ws, w ≠ []) :
    (∃ w ∈ ws, ([' '].intercalate ws).head? = w.head?) ∧
      ∃ w ∈ ws, ([' '].intercalate ws).getLast? = w.getLast? := by
  induction ws with
  | nil => exact absurd rfl hws
  | cons w ws ih =>
    cases ws with
    | nil => simp
    | cons w' ws =>
      obtain ⟨-, l, hl, hlast⟩ := ih (List.cons_ne_nil _ _) fun v hv => hne v (List.mem_cons_of_mem _ hv)
      rw [List.intercalate_cons_cons]
      constructor
      · refine ⟨w, List.mem_cons_self, ?_⟩
        obtain ⟨c, cs, rfl⟩ := List.exists_cons_of_ne_nil (hne w List.mem_cons_self)
        rfl
      · refine ⟨l, List.mem_cons_of_mem _ hl, ?_⟩
        obtain ⟨d, hd⟩ := Option.isSome_iff_exists.1
          (List.getLast?_isSome.2 (hne l (List.mem_cons_of_mem _ hl)))
        rw [List.getLast?_append, hlast, hd, Option.some_or]

theorem trim_words {ws : List (List Char)} (h : ∀ w ∈ ws, w ≠ [] ∧ ∀ c ∈ w, isWhitespace c = false) :
    trim ([' '].intercalate ws) = [' '].intercalate ws := by
  by_cases hws : ws = []
  · subst hws
    rfl
  · obtain ⟨⟨v, hv, hhead⟩, l, hl, hlast⟩ := ends_of_words hws fun w hw => (h w hw).1
    obtain ⟨c, hc⟩ := Option.isSome_iff_exists.1 (List.isSome_head?.2 (h v hv).1)
    obtain ⟨d, hd⟩ := Option.isSome_iff_exists.1 (List.getLast?_isSome.2 (h l hl).1)
    exact trim_eq_self ((h v hv).2 c (List.mem_of_head? hc)) ((h l hl).2 d (List.mem_of_getLast? hd))
      (hhead.trans hc) (hlast.trans hd)

/-! ## Trimming a longer text -/

theorem trimStart_append (s t : List Char) :
    trimStart (s ++ t) = if trimStart s = [] then trimStart t else trimStart s ++ t := by
  unfold trimStart
  rw [List.dropWhile_append]
  simp

theorem trimEnd_append (s t : List Char) :
    trimEnd (s ++ t) = if trimEnd t = [] then trimEnd s else s ++ trimEnd t := by
  unfold trimEnd List.rdropWhile
  rw [List.reverse_append, List.dropWhile_append]
  simp only [List.isEmpty_iff, List.reverse_eq_nil_iff]
  split <;> simp

theorem takeWhile_append_trimStart (s : List Char) : s.takeWhile isWhitespace ++ trimStart s = s :=
  List.takeWhile_append_dropWhile

/-- A text without the blanks around it ends any text it ends. -/
theorem trim_suffix (t s : List Char) : trim s <:+ trim (t ++ s) := by
  have hstart : ∃ z, trimStart (t ++ s) = z ++ trimStart s := by
    rw [trimStart_append]
    split
    · exact ⟨[], rfl⟩
    · exact ⟨trimStart t ++ s.takeWhile isWhitespace, by
        rw [List.append_assoc, takeWhile_append_trimStart]⟩
  obtain ⟨z, hz⟩ := hstart
  unfold trim
  rw [hz, trimEnd_append]
  split
  · next hnil =>
    rw [hnil]
    exact List.nil_suffix
  · exact List.suffix_append z _

theorem trim_suffix_trimEnd (s : List Char) : trim s <:+ trimEnd s := by
  have h := trimEnd_append (s.takeWhile isWhitespace) (trimStart s)
  rw [takeWhile_append_trimStart] at h
  rw [h]
  split
  · next hnil =>
    rw [trim, hnil]
    exact List.nil_suffix
  · exact List.suffix_append _ _

theorem trim_prefix (s t : List Char) : trim s <+: trim (s ++ t) := by
  by_cases hblank : trimStart s = []
  · simp [trim, hblank, trimEnd]
  · unfold trim
    rw [trimStart_append, if_neg hblank, trimEnd_append]
    split
    · exact List.prefix_rfl
    · exact (List.rdropWhile_prefix _ _).trans (List.prefix_append _ _)

/-! ## Runs of blanks -/

/-- Every run of blanks is one space. -/
def squeeze : List Char → List Char
  | [] => []
  | c :: s =>
    if isWhitespace c then
      if s.head?.any isWhitespace then squeeze s else ' ' :: squeeze s
    else c :: squeeze s

theorem squeeze_plain {w : List Char} (hw : ∀ c ∈ w, isWhitespace c = false) (s : List Char) :
    squeeze (w ++ s) = w ++ squeeze s := by
  induction w with
  | nil => rfl
  | cons c w ih =>
    rw [List.cons_append, squeeze, hw c List.mem_cons_self, ih fun d hd => hw d (List.mem_cons_of_mem _ hd)]
    rfl

theorem squeeze_blank {c : Char} (hc : isWhitespace c = true) (s : List Char) :
    squeeze (c :: s) = ' ' :: squeeze (trimStart s) := by
  induction s generalizing c with
  | nil =>
    rw [squeeze, if_pos hc]
    rfl
  | cons d s ih =>
    rw [squeeze, if_pos hc]
    cases hd : isWhitespace d with
    | true =>
      rw [if_pos (by simp [hd]), ih hd]
      simp [trimStart, hd]
    | false =>
      rw [if_neg (by simp [hd])]
      simp [trimStart, hd]

/-- A blank ends a word. -/
theorem splitWhitespace_append {c : Char} (hc : isWhitespace c = true) (s t : List Char) :
    splitWhitespace (s ++ c :: t) = splitWhitespace s ++ splitWhitespace t := by
  unfold splitWhitespace
  rw [List.splitOnP_append_cons s t hc, List.filter_append]

theorem splitWhitespace_blank {c : Char} (hc : isWhitespace c = true) (s : List Char) :
    splitWhitespace (c :: s) = splitWhitespace s := by
  simpa [splitWhitespace, List.splitOnP_nil] using splitWhitespace_append hc [] s

theorem splitWhitespace_word {w : List Char} (hne : w ≠ []) (hw : ∀ c ∈ w, isWhitespace c = false) :
    splitWhitespace w = [w] := by
  rw [splitWhitespace, List.splitOnP_eq_singleton hw]
  simp [hne]

theorem splitWhitespace_trimStart (s : List Char) : splitWhitespace (trimStart s) = splitWhitespace s := by
  induction s with
  | nil => rfl
  | cons c s ih =>
    cases hc : isWhitespace c with
    | true =>
      rw [splitWhitespace_blank hc, ← ih]
      simp [trimStart, hc]
    | false => simp [trimStart, hc]

/-- A text starts with a blank, or it is a word, or a word that a blank ends. -/
theorem word_cases (s : List Char) :
    s = [] ∨ (∃ c t, s = c :: t ∧ isWhitespace c = true) ∨
      ∃ w, w ≠ [] ∧ (∀ c ∈ w, isWhitespace c = false) ∧ (s = w ∨ ∃ c t, s = w ++ c :: t ∧ isWhitespace c = true) := by
  induction s with
  | nil => exact Or.inl rfl
  | cons d s ih =>
    cases hd : isWhitespace d with
    | true => exact Or.inr (Or.inl ⟨d, s, rfl, hd⟩)
    | false =>
      refine Or.inr (Or.inr ?_)
      rcases ih with rfl | ⟨c, t, rfl, hc⟩ | ⟨w, -, hw, hs⟩
      · exact ⟨[d], by simp, by simpa using hd, Or.inl rfl⟩
      · exact ⟨[d], by simp, by simpa using hd, Or.inr ⟨c, t, rfl, hc⟩⟩
      · refine ⟨d :: w, by simp, List.forall_mem_cons.2 ⟨hd, hw⟩, ?_⟩
        rcases hs with rfl | ⟨c, t, rfl, hc⟩
        · exact Or.inl rfl
        · exact Or.inr ⟨c, t, rfl, hc⟩

theorem trimEnd_word {w : List Char} (hw : ∀ c ∈ w, isWhitespace c = false) : trimEnd w = w := by
  unfold trimEnd
  rw [List.rdropWhile_eq_self_iff]
  intro hne
  simp [hw _ (List.getLast_mem hne)]

theorem trimStart_word {w : List Char} (hne : w ≠ []) (hw : ∀ c ∈ w, isWhitespace c = false) (s : List Char) :
    trimStart (w ++ s) = w ++ s := by
  obtain ⟨c, w, rfl⟩ := List.exists_cons_of_ne_nil hne
  simp [trimStart, hw c List.mem_cons_self]

theorem trimStart_squeeze (s : List Char) : trimStart (squeeze (trimStart s)) = squeeze (trimStart s) := by
  cases h : trimStart s with
  | nil => rfl
  | cons c t =>
    have hc : isWhitespace c = false := by
      have := List.head?_dropWhile_not isWhitespace s
      rw [show s.dropWhile isWhitespace = c :: t from h] at this
      simpa using this
    rw [squeeze, hc]
    simp [trimStart, hc]

/-- What is left of a text when every run of blanks is one space and the outer ones are gone are its words
with one space between them. -/
theorem trim_squeeze (s : List Char) : trim (squeeze s) = [' '].intercalate (splitWhitespace s) := by
  have hblank : isWhitespace ' ' = true := by decide
  induction h : s.length using Nat.strong_induction_on generalizing s with
  | _ n ih =>
    rcases word_cases s with rfl | ⟨c, t, rfl, hc⟩ | ⟨w, hne, hw, rfl | ⟨c, t, rfl, hc⟩⟩
    · rfl
    · have hshort : (trimStart t).length < n := by
        have := (List.dropWhile_sublist (l := t) isWhitespace).length_le
        rw [List.length_cons] at h
        exact lt_of_le_of_lt this (by omega)
      calc trim (squeeze (c :: t))
          = trim (squeeze (trimStart t)) := by
            rw [squeeze_blank hc]
            simp [trim, trimStart, hblank]
        _ = [' '].intercalate (splitWhitespace (c :: t)) := by
            rw [ih _ hshort _ rfl, splitWhitespace_trimStart, splitWhitespace_blank hc]
    · have hsqueeze : squeeze s = s := by simpa [squeeze] using squeeze_plain hw []
      have hstart : trimStart s = s := by simpa using trimStart_word hne hw []
      rw [hsqueeze, splitWhitespace_word hne hw, trim, hstart, trimEnd_word hw]
      simp
    · have hshort : (trimStart t).length < n := by
        have := (List.dropWhile_sublist (l := t) isWhitespace).length_le
        rw [List.length_append, List.length_cons] at h
        exact lt_of_le_of_lt this (by omega)
      have hrest : trimEnd (squeeze (trimStart t)) = [' '].intercalate (splitWhitespace t) := by
        rw [← splitWhitespace_trimStart t, ← ih _ hshort _ rfl, trim, trimStart_squeeze]
      rw [squeeze_plain hw, squeeze_blank hc, trim, trimStart_word hne hw, trimEnd_append,
        show ' ' :: squeeze (trimStart t) = [' '] ++ squeeze (trimStart t) from rfl, trimEnd_append, hrest,
        trimEnd_word hw, splitWhitespace_append hc, splitWhitespace_word hne hw]
      cases hwords : splitWhitespace t with
      | nil => simp [trimEnd, hblank]
      | cons v vs =>
        have hv : v ≠ [] := (word_of_splitWhitespace (hwords ▸ List.mem_cons_self)).1
        have hsome : [' '].intercalate (v :: vs) ≠ [] := by
          cases vs with
          | nil => simpa using hv
          | cons u vs => simp [List.intercalate_cons_cons]
        rw [if_neg hsome, if_neg (by simp), show [w] ++ v :: vs = w :: v :: vs from rfl, List.intercalate_cons_cons,
          List.append_assoc]

end RustStr
