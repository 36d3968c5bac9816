import OhMyClaw.Tools.FileEdit

/-!
# The line endings of an edited file

In a file whose line endings are all CRLF every line feed stands behind exactly one carriage
return.  An edit whose text is found as it is puts its replacement in as it is, and one whose text
is found with its line feeds turned into CRLF does the same to every line feed of the replacement,
those that stand behind a carriage return already among them.

    joins_iff       what the places where a replacement is put in have to look like
    crlfKept_iff    when an edit leaves a CRLF file one
-/

namespace OhMyClaw.FileEdit

open Posix

/-- The text ends in exactly one carriage return. -/
def OneCr (s : List Char) : Prop := s.getLast? = some '\r' ∧ s.dropLast.getLast? ≠ some '\r'

/-- Behind `ahead`, every line feed of the text stands behind exactly one carriage return. -/
def Fits (ahead s : List Char) : Prop := ∀ u v, s = u ++ '\n' :: v → OneCr (ahead ++ u)

/-- All line endings are CRLF: no bare line feed and no doubled carriage return. -/
def OnlyCrlf (s : List Char) : Prop := Fits [] s

/-- What follows a place fits the text ahead of it: a line feed wants one carriage return there, a
CRLF wants none. -/
def Meets (ahead s : List Char) : Prop :=
  (['\n'] <+: s → OneCr ahead) ∧ (['\r', '\n'] <+: s → ahead.getLast? ≠ some '\r')

/-- The replacement fits at every place between two pieces, and so does what follows it there. -/
def Joins (replacement : List Char) : List Char → List (List Char) → Prop
  | ahead, piece :: next :: rest =>
    Fits (ahead ++ piece) replacement ∧ Meets (ahead ++ (piece ++ replacement)) next ∧
      Joins replacement (ahead ++ (piece ++ replacement)) (next :: rest)
  | _, _ => True

variable {ahead s t : List Char}

theorem fits_append : Fits ahead (s ++ t) ↔ Fits ahead s ∧ Fits (ahead ++ s) t := by
  constructor
  · intro h
    refine ⟨fun u v hs => h u (v ++ t) (by rw [hs]; simp), fun u v ht => ?_⟩
    rw [List.append_assoc]
    exact h (s ++ u) v (by rw [ht]; simp)
  · rintro ⟨hs, ht⟩ u v hsplit
    rcases List.append_eq_append_iff.1 hsplit with ⟨w, rfl, hw⟩ | ⟨w, hsu, hw⟩
    · rw [← List.append_assoc]
      exact ht w v hw
    · cases w with
      | nil =>
        rw [List.append_nil] at hsu
        have := ht [] v hw.symm
        rwa [List.append_nil, hsu] at this
      | cons c w =>
        obtain ⟨rfl, -⟩ := List.cons.inj hw
        exact hs u w hsu

theorem fits_cons {c : Char} : Fits ahead (c :: s) ↔ (c = '\n' → OneCr ahead) ∧ Fits (ahead ++ [c]) s := by
  rw [show c :: s = [c] ++ s from rfl, fits_append]
  refine and_congr_left fun _ => ⟨fun h hc => ?_, fun h u v hs => ?_⟩
  · have := h [] [] (by rw [hc]; rfl)
    rwa [List.append_nil] at this
  · cases u with
    | nil =>
      rw [List.append_nil]
      exact h (List.cons.inj hs).1
    | cons d u => simp at hs

instance (s : List Char) : Decidable (OneCr s) :=
  inferInstanceAs (Decidable (s.getLast? = some '\r' ∧ s.dropLast.getLast? ≠ some '\r'))

instance decidableFits : (ahead s : List Char) → Decidable (Fits ahead s)
  | _, [] => isTrue fun u v h => by simp at h
  | ahead, c :: s =>
    have := decidableFits (ahead ++ [c]) s
    decidable_of_iff _ fits_cons.symm

instance (s : List Char) : Decidable (OnlyCrlf s) := decidableFits [] s

/-- The last two characters decide. -/
theorem oneCr_append_two (c d : Char) (s t : List Char) : OneCr (s ++ (t ++ [c, d])) ↔ OneCr (t ++ [c, d]) := by
  have hsplit : ∀ r : List Char, OneCr (r ++ [c, d]) ↔ d = '\r' ∧ c ≠ '\r' := by
    intro r
    have hdrop : (r ++ [c, d]).dropLast = r ++ [c] := by
      rw [show r ++ [c, d] = (r ++ [c]) ++ [d] by simp, List.dropLast_concat]
    unfold OneCr
    rw [hdrop]
    simp
  rw [← List.append_assoc, hsplit, hsplit]

theorem oneCr_concat : OneCr (s ++ ['\r']) ↔ s.getLast? ≠ some '\r' := by
  unfold OneCr
  rw [List.dropLast_concat]
  simp

/-- A text that fits behind something fits wherever its first two characters do. -/
theorem fits_iff_meets {before : List Char} (h : Fits before s) : Fits ahead s ↔ Meets ahead s := by
  constructor
  · intro hfits
    constructor
    · rintro ⟨v, rfl⟩
      have := hfits [] v rfl
      rwa [List.append_nil] at this
    · rintro ⟨v, rfl⟩
      exact oneCr_concat.1 (hfits ['\r'] v rfl)
  · rintro ⟨hfeed, hcrlf⟩ u v hs
    have hbefore := h u v hs
    rcases List.eq_nil_or_concat u with rfl | ⟨u, d, rfl⟩
    · rw [List.append_nil]
      exact hfeed ⟨v, hs.symm⟩
    · rcases List.eq_nil_or_concat u with rfl | ⟨u, c, rfl⟩
      · obtain rfl : d = '\r' := by
          have := hbefore.1
          simpa using this
        exact oneCr_concat.2 (hcrlf ⟨v, by rw [hs]; rfl⟩)
      · have htwo : u.concat c ++ [d] = u ++ [c, d] := by simp
        rw [List.concat_eq_append, htwo] at hbefore ⊢
        exact (oneCr_append_two c d ahead u).2 ((oneCr_append_two c d before u).1 hbefore)

/-- In a text that is put together from pieces of a text that fits, the places between the pieces
decide. -/
theorem joins_iff (needle replacement : List Char) {pieces : List (List Char)} (hpieces : pieces ≠ [])
    {before : List Char} (h : Fits before (needle.intercalate pieces)) (ahead : List Char) :
    Fits ahead (replacement.intercalate pieces) ↔
      Meets ahead (pieces.head hpieces) ∧ Joins replacement ahead pieces := by
  induction pieces generalizing before ahead with
  | nil => exact absurd rfl hpieces
  | cons piece rest ih =>
    cases rest with
    | nil =>
      rw [List.intercalate_singleton] at h ⊢
      rw [fits_iff_meets h]
      simp [Joins]
    | cons next rest =>
      rw [List.intercalate_cons_cons] at h ⊢
      obtain ⟨hfirst, hrest⟩ := fits_append.1 h
      obtain ⟨hpiece, -⟩ := fits_append.1 hfirst
      rw [fits_append, fits_append, fits_iff_meets hpiece,
        ih (List.cons_ne_nil _ _) hrest (ahead ++ (piece ++ replacement)), List.head_cons, List.head_cons, and_assoc]
      rfl

/-! ## An edit of a CRLF file -/

variable {env : Env} {files : Files} {path content old new needle replacement : List Char} {replaceAll : Bool} {loc : Loc}

/-- An edit that is not refused puts the replacement in at every place between the pieces. -/
theorem replaceIn_of_resolve (hold : old ≠ []) (h : resolveNeedle content old new = some (needle, replacement))
    (hcount : 1 < Find.count needle content → replaceAll = true) :
    replaceIn content old new replaceAll =
      .ok (replacement.intercalate (Find.pieces needle content), Find.count needle content) := by
  have hneedle := needle_ne_nil hold h
  have hpos := (Find.count_pos hneedle).2 (resolveNeedle_eq_some h).1
  unfold replaceIn
  rw [h]
  cases replaceAll with
  | true => simp [Find.replace]
  | false =>
    have hone : Find.count needle content = 1 := by
      have hle := mt hcount Bool.false_ne_true
      omega
    simp [hone, Find.replaceFirst_eq_replace hneedle replacement hone, Find.replace]

/-- A CRLF file is one after the edit. -/
def CrlfKept (env : Env) (files : Files) (path old new : List Char) (replaceAll : Bool) : Prop :=
  ∀ loc content, opened env files path = some (loc, content) → OnlyCrlf content →
    (edit env files path old new replaceAll).succeeded = true →
      ∃ updated, (edit env files path old new replaceAll).files loc = some (Utf8.encode updated) ∧
        OnlyCrlf updated

/-- The text an edit leaves is a CRLF text when the replacement joins the pieces. -/
theorem onlyCrlf_intercalate (hneedle : needle ≠ []) (hcontent : OnlyCrlf content) :
    OnlyCrlf (replacement.intercalate (Find.pieces needle content)) ↔
      Joins replacement [] (Find.pieces needle content) := by
  have hpieces := Find.pieces_ne_nil needle content
  have hwhole : Fits [] (needle.intercalate (Find.pieces needle content)) := by
    rw [Find.intercalate_pieces hneedle]
    exact hcontent
  have hjoins := fun q => joins_iff needle q hpieces hwhole []
  -- the content itself joins its pieces
  exact (hjoins replacement).trans (and_iff_right ((hjoins needle).1 hwhole).1)

theorem CrlfKept.updated (h : CrlfKept env files path old new replaceAll) (hold : old ≠ []) (hnew : old ≠ new)
    (hopened : opened env files path = some (loc, content)) (hcontent : OnlyCrlf content) {updated : List Char}
    {count : Nat} (hreplace : replaceIn content old new replaceAll = .ok (updated, count)) :
    OnlyCrlf updated := by
  obtain ⟨hsucceeded, hfiles⟩ := edit_of_replaceIn hold hnew hopened hreplace
  obtain ⟨updated', hupdated, hcrlf⟩ := h loc content hopened hcontent hsucceeded
  rw [hfiles, Function.update_self] at hupdated
  rwa [← Utf8.encode_injective (Option.some.inj hupdated)] at hcrlf

/-- An edit keeps the line endings of a CRLF file exactly when the replacement fits at every place it
is put in. -/
theorem crlfKept_iff (env : Env) (files : Files) (path old new : List Char) (replaceAll : Bool) :
    CrlfKept env files path old new replaceAll ↔
      ∀ loc content needle replacement, old ≠ [] → old ≠ new → opened env files path = some (loc, content) →
        OnlyCrlf content → resolveNeedle content old new = some (needle, replacement) →
        (1 < Find.count needle content → replaceAll = true) →
          Joins replacement [] (Find.pieces needle content) := by
  constructor
  · intro h loc content needle replacement hold hnew hopened hcontent hresolve hcount
    have hcrlf := h.updated hold hnew hopened hcontent (replaceIn_of_resolve hold hresolve hcount)
    exact (onlyCrlf_intercalate (needle_ne_nil hold hresolve) hcontent).1 hcrlf
  · intro h loc content hopened hcontent hsucceeded
    rcases edit_cases env files path old new replaceAll with
      ⟨hrefused, -⟩ | ⟨loc', content', updated, count, hold, hnew, hopened', hreplace⟩
    · rw [hsucceeded] at hrefused
      cases hrefused
    · obtain ⟨rfl, rfl⟩ := Prod.mk.inj (Option.some.inj (hopened.symm.trans hopened'))
      obtain ⟨needle, replacement, hresolve, -, hupdated⟩ := replaceIn_eq_ok hold hreplace
      have hcount : 1 < Find.count needle content → replaceAll = true := by
        rcases hupdated with ⟨hall, -⟩ | ⟨-, hone, -⟩
        · exact fun _ => hall
        · omega
      have hjoins := h loc content needle replacement hold hnew hopened hcontent hresolve hcount
      have hreplaced := replaceIn_of_resolve hold hresolve hcount
      refine ⟨_, ?_, (onlyCrlf_intercalate (needle_ne_nil hold hresolve) hcontent).2 hjoins⟩
      rw [(edit_of_replaceIn hold hnew hopened hreplaced).2, Function.update_self]

/-- The file `a`, CRLF, `b`: with two lines for `a` a bare line feed comes in, and a CRLF in the new
lines for both becomes a carriage return and a CRLF. -/
theorem crlfKept_fails :
    ¬ CrlfKept (notes [97, 13, 10, 98]).1 (notes [97, 13, 10, 98]).2 "notes".toList "a".toList "a\nc".toList false ∧
      ¬ CrlfKept (notes [97, 13, 10, 98]).1 (notes [97, 13, 10, 98]).2 "notes".toList "a\nb".toList
        "a\r\nc".toList false := by
  have hopened : opened (notes [97, 13, 10, 98]).1 (notes [97, 13, 10, 98]).2 "notes".toList =
      some (["notes"], "a\r\nb".toList) := by decide
  have hcontent : OnlyCrlf "a\r\nb".toList := by decide
  have hplain : resolveNeedle "a\r\nb".toList "a".toList "a\nc".toList = some ("a".toList, "a\nc".toList) := by
    decide
  have hconverted : resolveNeedle "a\r\nb".toList "a\nb".toList "a\r\nc".toList =
      some ("a\r\nb".toList, "a\r\r\nc".toList) := by decide
  constructor
  · intro h
    have hbare := h.updated (by decide) (by decide) hopened hcontent (replaceIn_of_count hplain (by decide))
    revert hbare
    decide
  · intro h
    have hdoubled := h.updated (by decide) (by decide) hopened hcontent
      (replaceIn_of_count hconverted (by decide))
    revert hdoubled
    decide

end OhMyClaw.FileEdit
