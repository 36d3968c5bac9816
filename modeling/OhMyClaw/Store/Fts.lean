import Mathlib.Data.List.Dedup
import Mathlib.Data.List.Sort
import Mathlib.Data.String.Basic
import OhMyClaw.Lib.Like
import OhMyClaw.Lib.Windows

/-!
# The encoding of the memory index

The index of the memory texts does not hold the texts: it holds, for each, the pairs of
neighbouring characters, in lower case and without what is no letter or digit.  A term is looked
up by its own pairs.

    windows_contains      a text that holds a term holds the term's tokens
-/

namespace OhMyClaw

/-- What the standard library knows of characters.  A letter of ASCII has the lower case of its other case,
and a blank is no letter. -/
structure Unicode where
  toLowercase : Char → List Char
  isAlphanumeric : Char → Bool
  toLowercase_ascii : ∀ c d : Char, c.toLower = d.toLower → toLowercase c = toLowercase d
  isAlphanumeric_blank : isAlphanumeric ' ' = false

/-- Letters and digits of ASCII, and everything beyond it. -/
def testUnicode : Unicode where
  toLowercase c := [c.toLower]
  isAlphanumeric c := c.isAlphanum || 128 ≤ c.toNat
  toLowercase_ascii c d h := by rw [h]
  isAlphanumeric_blank := by decide

namespace Fts

variable (U : Unicode)

/-- Lower case, letters and digits only; `none` if nothing is left. -/
def fold (w : List Char) : Option String :=
  let t := (w.flatMap U.toLowercase).filter U.isAlphanumeric
  if t = [] then none else some (String.ofList t)

/-- The tokens of a text: one for each pair of neighbours; a single character stands alone. -/
def windows (s : String) : List String :=
  let chars := s.toList
  if chars.length < 2 then (fold U chars).toList else (chars.windows 2).filterMap (fold U)

/-- `sort` and `dedup`. -/
def sortedTokens (s : String) : List String := ((windows U s).insertionSort (· ≤ ·)).dedup

def encodeDoc (text : String) : String := " ".intercalate (sortedTokens U text)

/-- An expression for MATCH: one of the terms, each by all of its tokens.  Tokens hold letters and digits
only, so the quotes around them need no care. -/
abbrev MatchExpr := List (List String)

def termExpr (term : String) : Option (List String) :=
  let tokens := sortedTokens U term
  if tokens = [] then none else some tokens

/-- `none` if there is a term the index cannot express. -/
def matchExpr (queryTerms : List String) : Option MatchExpr :=
  if queryTerms = [] then none else queryTerms.mapM (termExpr U)

/-! ## Tokens of a part -/

section Tokens

variable {U}

theorem flatMap_toLowercase {v w : List Char} (h : Sql.sameCase v w) :
    v.flatMap U.toLowercase = w.flatMap U.toLowercase := by
  induction v generalizing w with
  | nil =>
    cases w with
    | nil => rfl
    | cons c w => simp [Sql.sameCase] at h
  | cons c v ih =>
    cases w with
    | nil => simp [Sql.sameCase] at h
    | cons d w =>
      obtain ⟨hc, hrest⟩ := List.cons.inj h
      rw [List.flatMap_cons, List.flatMap_cons, U.toLowercase_ascii c d hc, ih hrest]

theorem fold_sameCase {v w : List Char} (h : Sql.sameCase v w) : fold U v = fold U w := by
  unfold fold
  rw [flatMap_toLowercase h]

/-- What is left of a window are letters and digits in lower case. -/
theorem fold_chars {w : List Char} {q : String} (h : fold U w = some q) :
    q ≠ "" ∧ ∀ c ∈ q.toList, U.isAlphanumeric c = true ∧ ∃ d ∈ w, c ∈ U.toLowercase d := by
  unfold fold at h
  simp only at h
  split at h
  · simp at h
  · next hne =>
    obtain rfl := Option.some.inj h
    refine ⟨fun hempty => hne (by simpa using congrArg String.toList hempty), fun c hc => ?_⟩
    rw [String.toList_ofList] at hc
    obtain ⟨hc, halnum⟩ := List.mem_filter.1 hc
    obtain ⟨d, hd, hcd⟩ := List.mem_flatMap.1 hc
    exact ⟨halnum, d, hd, hcd⟩

theorem windows_chars {s q : String} (h : q ∈ windows U s) :
    q ≠ "" ∧ ∀ c ∈ q.toList, U.isAlphanumeric c = true ∧ ∃ d ∈ s.toList, c ∈ U.toLowercase d := by
  unfold windows at h
  simp only at h
  split at h
  · exact fold_chars (Option.mem_toList.1 h)
  · obtain ⟨w, hw, hfold⟩ := List.mem_filterMap.1 h
    obtain ⟨hne, hchars⟩ := fold_chars hfold
    have hinfix := ((List.mem_windows (by omega)).1 hw).2
    refine ⟨hne, fun c hc => ?_⟩
    obtain ⟨halnum, d, hd, hcd⟩ := hchars c hc
    exact ⟨halnum, d, hinfix.subset hd, hcd⟩

theorem mem_sortedTokens {s q : String} : q ∈ sortedTokens U s ↔ q ∈ windows U s := by
  unfold sortedTokens
  rw [List.mem_dedup, List.mem_insertionSort]

theorem mem_windows {s : String} (h : 2 ≤ s.toList.length) {q : String} :
    q ∈ windows U s ↔ ∃ w ∈ s.toList.windows 2, fold U w = some q := by
  unfold windows
  rw [if_neg (by omega), List.mem_filterMap]

/-- A text that holds a term, up to case, holds all of its tokens. -/
theorem windows_contains {term text : String} {part : List Char} (hterm : 2 ≤ term.toList.length)
    (hpart : part <:+: text.toList) (hsame : Sql.sameCase part term.toList) {q : String}
    (hq : q ∈ windows U term) : q ∈ windows U text := by
  have hlen : part.length = term.toList.length := by
    have := congrArg List.length hsame
    simpa using this
  have htext : 2 ≤ text.toList.length := by
    have := hpart.length_le
    omega
  rw [mem_windows hterm] at hq
  rw [mem_windows htext]
  obtain ⟨v, hv, hfold⟩ := hq
  have hmem : v.map Char.toLower ∈ (part.windows 2).map (List.map Char.toLower) := by
    rw [← List.windows_map, hsame, List.windows_map]
    exact List.mem_map_of_mem hv
  obtain ⟨w, hw, hwv⟩ := List.mem_map.1 hmem
  exact ⟨w, List.windows_infix (by omega) hpart hw, (fold_sameCase hwv).trans hfold⟩

end Tokens

end Fts

end OhMyClaw
