import Mathlib.Data.List.DropRight
import Mathlib.Data.List.Forall2
import OhMyClaw.Lib.Lines
import OhMyClaw.Lib.RustStr
import OhMyClaw.Lib.Utf8

/-!
# The SSE buffer

`SseBuffer.push` decodes a chunk, appends it to the unfinished line and hands out the payload
of every `data:` line that is now complete.

    pushes_eq              pushing chunk by chunk is splitting the decoded chunks into lines
    pushes_eq_push_iff     it gives what one push gives exactly when no chunk boundary cuts a
                           character of a complete `data:` line

A chunk is decoded on its own, so a cut character does not survive: it comes out as two or
more U+FFFD, none of which any trimming removes.
-/

namespace OhMyClaw

open Utf8 Lines

/-- The unfinished line. -/
structure SseBuffer where
  buf : List Char
deriving DecidableEq, Repr

namespace SseBuffer

def new : SseBuffer := { buf := [] }

def isNewline (c : Char) : Bool := c = '\n'

def dataField : List Char := "data:".toList

/-- The payload of a line, if it is a `data:` line. -/
def dataPayload (line : List Char) : Option (List Char) :=
  (RustStr.stripPrefix (RustStr.trimEndMatches '\r' line) dataField).map RustStr.trim

/-- Feed a chunk; the loop of the source cuts off one line after the other, which is
`Lines.split`. -/
def push (b : SseBuffer) (bytes : List UInt8) : SseBuffer × List (List Char) :=
  let r := split isNewline (b.buf ++ fromUtf8Lossy bytes)
  ({ buf := r.2 }, r.1.filterMap dataPayload)

/-- The payloads of successive pushes. -/
def pushes : SseBuffer → List (List UInt8) → List (List Char)
  | _, [] => []
  | b, ch :: chunks => (b.push ch).2 ++ pushes (b.push ch).1 chunks

theorem pushes_eq (b : SseBuffer) (hb : ∀ c ∈ b.buf, isNewline c = false) (chunks : List (List UInt8)) :
    pushes b chunks = (split isNewline (b.buf ++ decodeChunks chunks)).1.filterMap dataPayload := by
  induction chunks generalizing b with
  | nil => simp [pushes, decodeChunks, split_rest hb]
  | cons ch chunks ih =>
    rw [pushes, ih _ (split_rest_sep _), decodeChunks_cons, ← List.append_assoc,
      split_append (b.buf ++ fromUtf8Lossy ch), List.filterMap_append]
    rfl

/-! ## Lines of a garbled text -/

def markedNewline (p : Char × Bool) : Bool := isNewline p.1

theorem replacement_ne_newline : isNewline replacement = false := by decide

/-- Garbling works line by line: no newline is cut and none appears. -/
theorem split_garbled {ms : List (Char × Bool)} {cs : List Char} (h : Garbled ms cs) :
    List.Forall₂ Garbled (split markedNewline ms).1 (split isNewline cs).1 ∧
      Garbled (split markedNewline ms).2 (split isNewline cs).2 := by
  induction h with
  | nil => exact ⟨.nil, .nil⟩
  | @keep c ms cs h ih =>
    obtain ⟨hlines, hrest⟩ := ih
    have hsame : markedNewline (c, false) = isNewline c := rfl
    simp only [split, hsame]
    split
    · exact ⟨.cons .nil hlines, hrest⟩
    · cases hm : (split markedNewline ms).1 with
      | nil =>
        rw [hm] at hlines
        rw [List.forall₂_nil_left_iff.1 hlines]
        exact ⟨.nil, .keep hrest⟩
      | cons l ls =>
        rw [hm] at hlines
        obtain ⟨l', ls', hl, hls, hc⟩ := List.forall₂_cons_left_iff.1 hlines
        rw [hc]
        exact ⟨.cons (.keep hl) hls, hrest⟩
  | @cut c n ms cs hc h ih =>
    obtain ⟨hlines, hrest⟩ := ih
    have hsep : markedNewline (c, true) = false := by
      simp only [markedNewline, isNewline, decide_eq_false_iff_not]
      rintro rfl
      exact absurd hc (by decide)
    have hrep : ∀ x ∈ List.replicate (n + 2) replacement, isNewline x = false := by
      intro x hx
      rw [List.eq_of_mem_replicate hx]
      exact replacement_ne_newline
    rw [split_prepend hrep]
    simp only [split, hsep, Bool.false_eq_true, if_false]
    cases hm : (split markedNewline ms).1 with
    | nil =>
      rw [hm] at hlines
      rw [List.forall₂_nil_left_iff.1 hlines]
      exact ⟨.nil, .cut hc hrest⟩
    | cons l ls =>
      rw [hm] at hlines
      obtain ⟨l', ls', hl, hls, hc'⟩ := List.forall₂_cons_left_iff.1 hlines
      rw [hc']
      exact ⟨.cons (.cut hc hl) hls, hrest⟩

/-- Without a cut nothing changes. -/
theorem garbled_eq {ms : List (Char × Bool)} {cs : List Char} (h : Garbled ms cs)
    (hcut : ∀ p ∈ ms, p.2 = false) : cs = ms.map (·.1) := by
  induction h with
  | nil => rfl
  | keep _ ih =>
    rw [ih fun p hp => hcut p (List.mem_cons_of_mem _ hp)]
    rfl
  | cut _ _ _ =>
    have := hcut _ List.mem_cons_self
    simp at this

theorem count_garbled_le {ms : List (Char × Bool)} {cs : List Char} (h : Garbled ms cs) :
    (ms.map (·.1)).count replacement ≤ cs.count replacement := by
  induction h with
  | nil => exact Nat.le_refl _
  | keep _ ih =>
    simp only [List.map_cons, List.count_cons]
    omega
  | @cut c n ms cs _ _ ih =>
    simp only [List.map_cons, List.count_cons, List.count_append, List.count_replicate_self]
    split <;> omega

/-- A cut adds at least one U+FFFD. -/
theorem count_garbled_lt {ms : List (Char × Bool)} {cs : List Char} (h : Garbled ms cs)
    (hcut : ∃ p ∈ ms, p.2 = true) : (ms.map (·.1)).count replacement < cs.count replacement := by
  induction h with
  | nil => simp at hcut
  | keep _ ih =>
    obtain ⟨p, hp, hpc⟩ := hcut
    rcases List.mem_cons.1 hp with rfl | hp
    · simp at hpc
    · have := ih ⟨p, hp, hpc⟩
      simp only [List.map_cons, List.count_cons]
      omega
  | @cut c n ms cs _ h _ =>
    have := count_garbled_le h
    simp only [List.map_cons, List.count_cons, List.count_append, List.count_replicate_self]
    split <;> omega

/-- An ASCII text stands at the start of a line before and after garbling alike. -/
theorem startsWith_garbled {ms : List (Char × Bool)} {cs : List Char} (h : Garbled ms cs)
    {p : List Char} (hp : ∀ c ∈ p, c.toNat < 0x80) :
    RustStr.startsWith cs p = RustStr.startsWith (ms.map (·.1)) p := by
  induction p generalizing ms cs with
  | nil => simp [RustStr.startsWith]
  | cons x p ih =>
    have hx := hp x List.mem_cons_self
    cases h with
    | nil => rfl
    | @keep c ms cs h =>
      have := ih h fun y hy => hp y (List.mem_cons_of_mem _ hy)
      simp only [RustStr.startsWith] at this
      simp only [RustStr.startsWith, List.map_cons, List.isPrefixOf_cons_cons, this]
    | @cut c n ms cs hc h =>
      have hxc : x ≠ c := by
        rintro rfl
        omega
      have hxr : x ≠ replacement := by
        rintro rfl
        exact absurd hx (by decide)
      simp [RustStr.startsWith, List.replicate_succ, List.isPrefixOf_cons_cons,
        beq_eq_false_iff_ne.2 hxc, beq_eq_false_iff_ne.2 hxr]

/-! ## Payloads -/

theorem count_dropWhile {p : Char → Bool} {x : Char} (h : p x = false) (cs : List Char) :
    (cs.dropWhile p).count x = cs.count x := by
  induction cs with
  | nil => rfl
  | cons c cs ih =>
    simp only [List.dropWhile_cons]
    split
    · next hc =>
      have : c ≠ x := by
        rintro rfl
        simp [h] at hc
      rw [ih, List.count_cons_of_ne this]
    · rfl

theorem count_rdropWhile {p : Char → Bool} {x : Char} (h : p x = false) (cs : List Char) :
    (cs.rdropWhile p).count x = cs.count x := by
  rw [List.rdropWhile, List.count_reverse, count_dropWhile h, List.count_reverse]

theorem count_trim (cs : List Char) : (RustStr.trim cs).count replacement = cs.count replacement := by
  have hw : RustStr.isWhitespace replacement = false := by decide
  rw [RustStr.trim, RustStr.trimEnd, RustStr.trimStart, count_rdropWhile hw, count_dropWhile hw]

/-- Trimming a line end leaves a front without that character in place. -/
theorem trimEndMatches_append {c : Char} {front : List Char} (h : ∀ x ∈ front, x ≠ c) (back : List Char) :
    RustStr.trimEndMatches c (front ++ back) = front ++ RustStr.trimEndMatches c back := by
  unfold RustStr.trimEndMatches
  induction back using List.reverseRec with
  | nil =>
    cases front using List.reverseRec with
    | nil => rfl
    | append_singleton front y =>
      rw [List.append_nil, List.rdropWhile_concat_neg _ _ _ (by simpa using h y (by simp))]
      simp
  | append_singleton back y ih =>
    rw [← List.append_assoc]
    by_cases hy : y = c
    · rw [List.rdropWhile_concat_pos _ _ _ (by simpa using hy),
        List.rdropWhile_concat_pos _ _ _ (by simpa using hy), ih]
    · rw [List.rdropWhile_concat_neg _ _ _ (by simpa using hy),
        List.rdropWhile_concat_neg _ _ _ (by simpa using hy), List.append_assoc]

/-- A `data:` line has a payload with as many U+FFFD as the line. -/
theorem dataPayload_of_data {line : List Char} (h : RustStr.startsWith line dataField = true) :
    ∃ payload, dataPayload line = some payload ∧
      payload.count replacement = line.count replacement := by
  obtain ⟨back, rfl⟩ := RustStr.startsWith_iff.1 h
  have hcr : ∀ x ∈ dataField, x ≠ '\r' := List.forall_iff_forall_mem.1 (by decide)
  have hstart : RustStr.startsWith (dataField ++ RustStr.trimEndMatches '\r' back) dataField = true :=
    RustStr.startsWith_iff.2 (List.prefix_append _ _)
  refine ⟨RustStr.trim (RustStr.trimEndMatches '\r' back), ?_, ?_⟩
  · rw [dataPayload, trimEndMatches_append hcr, RustStr.stripPrefix, hstart]
    simp
  · have hfield : dataField.count replacement = 0 := by decide
    have hr : (decide (replacement = '\r')) = false := by decide
    rw [count_trim, RustStr.trimEndMatches, count_rdropWhile hr, List.count_append, hfield,
      Nat.zero_add]

theorem dataPayload_eq_none {line : List Char} (h : RustStr.startsWith line dataField = false) :
    dataPayload line = none := by
  have hno : RustStr.startsWith (RustStr.trimEndMatches '\r' line) dataField = false := by
    rw [← Bool.not_eq_true] at h ⊢
    intro hs
    exact h (RustStr.startsWith_iff.2 ((RustStr.startsWith_iff.1 hs).trans (List.rdropWhile_prefix _ _)))
  simp [dataPayload, RustStr.stripPrefix, hno]

/-- One line: the payload survives garbling unless the line is a `data:` line with a cut. -/
theorem dataPayload_garbled {ms : List (Char × Bool)} {cs : List Char} (h : Garbled ms cs) :
    (dataPayload cs).isSome = (dataPayload (ms.map (·.1))).isSome ∧
      (dataPayload cs = dataPayload (ms.map (·.1)) ↔
        (RustStr.startsWith (ms.map (·.1)) dataField = true → ∀ p ∈ ms, p.2 = false)) := by
  have hascii : ∀ c ∈ dataField, c.toNat < 0x80 := List.forall_iff_forall_mem.1 (by decide)
  have hsame := startsWith_garbled h hascii
  cases hdata : RustStr.startsWith (ms.map (·.1)) dataField with
  | false =>
    rw [hdata] at hsame
    simp [dataPayload_eq_none hsame, dataPayload_eq_none hdata]
  | true =>
    rw [hdata] at hsame
    obtain ⟨payload, hpayload, hcount⟩ := dataPayload_of_data hdata
    obtain ⟨payload', hpayload', hcount'⟩ := dataPayload_of_data hsame
    refine ⟨by rw [hpayload, hpayload']; rfl, ?_⟩
    constructor
    · intro heq _
      by_contra hcut
      simp only [not_forall, Bool.not_eq_false] at hcut
      obtain ⟨p, hp, hpc⟩ := hcut
      have hlt := count_garbled_lt h ⟨p, hp, hpc⟩
      rw [hpayload, hpayload', Option.some.injEq] at heq
      rw [heq] at hcount'
      omega
    · intro hcut
      rw [garbled_eq h (hcut rfl)]

/-- All lines: the payloads survive exactly when those of every line do. -/
theorem filterMap_garbled {mls : List (List (Char × Bool))} {cls : List (List Char)}
    (h : List.Forall₂ Garbled mls cls) :
    cls.filterMap dataPayload = (mls.map (·.map (·.1))).filterMap dataPayload ↔
      ∀ ms ∈ mls, RustStr.startsWith (ms.map (·.1)) dataField = true → ∀ p ∈ ms, p.2 = false := by
  induction h with
  | nil => simp
  | @cons ms cs mls cls hg _ ih =>
    obtain ⟨hsome, heq⟩ := dataPayload_garbled hg
    rw [List.forall_mem_cons, ← ih, ← heq]
    cases hm : dataPayload (ms.map (·.1)) with
    | none =>
      have hc : dataPayload cs = none := by simpa [hm] using hsome
      simp [hm, hc]
    | some payload =>
      obtain ⟨payload', hc⟩ := Option.isSome_iff_exists.1 (by simpa [hm] using hsome)
      simp [hm, hc]

/-! ## Chunked and whole -/

/-- No chunk boundary falls inside a character of a complete `data:` line. -/
def DataLinesUncut (text : List Char) (chunks : List (List UInt8)) : Prop :=
  ∀ front line back, text = front ++ line ++ '\n' :: back → AtStart isNewline front →
    (∀ c ∈ line, isNewline c = false) → RustStr.startsWith line dataField = true →
    ∀ l₁ c l₂, line = l₁ ++ c :: l₂ → ¬ CutInside chunks (front ++ l₁) c

theorem decodeChunks_whole (text : List Char) : decodeChunks [encode text] = text := by
  simp [decodeChunks, fromUtf8Lossy_encode]

theorem map_split (ms : List (Char × Bool)) :
    (split markedNewline ms).1.map (·.map (·.1)) = (split isNewline (ms.map (·.1))).1 ∧
      (split markedNewline ms).2.map (·.1) = (split isNewline (ms.map (·.1))).2 := by
  induction ms with
  | nil => exact ⟨rfl, rfl⟩
  | cons p ms ih =>
    obtain ⟨hlines, hrest⟩ := ih
    have hsame : markedNewline p = isNewline p.1 := rfl
    simp only [List.map_cons, split, hsame, ← hlines, ← hrest]
    split
    · exact ⟨rfl, rfl⟩
    · cases (split markedNewline ms).1 with
      | nil => exact ⟨rfl, rfl⟩
      | cons l ls => exact ⟨rfl, rfl⟩

/-- The marks of a text's complete `data:` lines are all clear exactly when no boundary falls
inside them. -/
theorem dataLinesUncut_iff {text : List Char} {chunks : List (List UInt8)} {ms : List (Char × Bool)}
    (hms : ms.map (·.1) = text)
    (hcut : ∀ pre c b post, ms = pre ++ (c, b) :: post →
      (b = true ↔ CutInside chunks (pre.map (·.1)) c)) :
    (∀ l ∈ (split markedNewline ms).1, RustStr.startsWith (l.map (·.1)) dataField = true →
      ∀ p ∈ l, p.2 = false) ↔ DataLinesUncut text chunks := by
  constructor
  · intro h front line back htext hstart hline hdata l₁ c l₂ hl
    rw [htext, List.append_assoc] at hms
    obtain ⟨mfront, mrest, rfl, rfl, hmrest⟩ := List.map_eq_append_iff.1 hms
    obtain ⟨mline, mback, rfl, rfl, hmback⟩ := List.map_eq_append_iff.1 hmrest
    obtain ⟨s, mback, rfl, hs, rfl⟩ := List.map_eq_cons_iff.1 hmback
    obtain ⟨m₁, m₂, rfl, rfl, hm₂⟩ := List.map_eq_append_iff.1 hl
    obtain ⟨⟨c', b⟩, m₂, rfl, rfl, rfl⟩ := List.map_eq_cons_iff.1 hm₂
    have hmem : m₁ ++ (c', b) :: m₂ ∈ (split markedNewline
        (mfront ++ (m₁ ++ (c', b) :: m₂ ++ s :: mback))).1 := by
      rw [mem_split]
      refine ⟨mfront, s, mback, by simp, ?_, ?_, ?_⟩
      · rcases hstart with hnil | ⟨front', s', hfront, hs'⟩
        · exact Or.inl (List.map_eq_nil_iff.1 hnil)
        · obtain ⟨mfront', ms', rfl, rfl, hms'⟩ := List.map_eq_append_iff.1 hfront
          obtain ⟨q, rfl, rfl⟩ := List.map_eq_singleton_iff.1 hms'
          exact Or.inr ⟨mfront', q, rfl, hs'⟩
      · intro x hx
        exact hline x.1 (List.mem_map_of_mem hx)
      · simp [markedNewline, isNewline, hs]
    have hb : b = false := h _ hmem hdata (c', b) (by simp)
    rw [← List.map_append, ← hcut (mfront ++ m₁) c' b (m₂ ++ s :: mback) (by simp), hb]
    simp
  · intro h l hl hdata p hp
    obtain ⟨front, s, back, rfl, hstart, hline, hs⟩ := mem_split.1 hl
    obtain ⟨l₁, l₂, rfl⟩ := List.append_of_mem hp
    obtain ⟨c, b⟩ := p
    have hs' : s.1 = '\n' := by simpa [markedNewline, isNewline] using hs
    have huncut := h (front.map (·.1)) ((l₁ ++ (c, b) :: l₂).map (·.1)) (back.map (·.1))
      (by rw [← hms]; simp [hs']) ?_ ?_ hdata (l₁.map (·.1)) c (l₂.map (·.1)) (by simp)
    · rw [← List.map_append, ← hcut (front ++ l₁) c b (l₂ ++ s :: back) (by simp)] at huncut
      simpa using huncut
    · rcases hstart with rfl | ⟨front', s', rfl, hs'⟩
      · exact Or.inl rfl
      · exact Or.inr ⟨front'.map (·.1), s'.1, by simp, hs'⟩
    · intro x hx
      obtain ⟨q, hq, rfl⟩ := List.mem_map.1 hx
      exact hline q hq

/-- Pushing a well-formed stream in chunks gives what one push of the whole gives exactly when
no chunk boundary falls inside a character of a complete `data:` line. -/
theorem pushes_eq_push_iff (text : List Char) (chunks : List (List UInt8))
    (h : chunks.flatten = encode text) :
    pushes new chunks = (push new (encode text)).2 ↔ DataLinesUncut text chunks := by
  obtain ⟨ms, hms, hgarbled, hcut⟩ := decodeChunks_garbled text chunks h
  have hwhole : (push new (encode text)).2 = (split isNewline text).1.filterMap dataPayload := by
    have := pushes_eq new (by simp [new]) [encode text]
    simpa [pushes, new, decodeChunks_whole] using this
  rw [hwhole, pushes_eq new (by simp [new]), ← dataLinesUncut_iff hms hcut]
  simp only [new, List.nil_append]
  rw [← filterMap_garbled (split_garbled hgarbled).1, (map_split ms).1, hms]

theorem pushes_eq_push_iff_ascii :
    [[100, 97, 116], [97, 58, 32, 120, 10]].flatten = encode "data: x\n".toList ∧
      (pushes new [[100, 97, 116], [97, 58, 32, 120, 10]] = (push new (encode "data: x\n".toList)).2 ↔
        DataLinesUncut "data: x\n".toList [[100, 97, 116], [97, 58, 32, 120, 10]]) :=
  ⟨by decide, pushes_eq_push_iff "data: x\n".toList [[100, 97, 116], [97, 58, 32, 120, 10]] (by decide)⟩

/-- One character of three bytes, cut behind its first. -/
theorem pushes_ne_push_cut :
    ¬ ∀ (text : List Char) (chunks : List (List UInt8)), chunks.flatten = encode text →
      pushes new chunks = (push new (encode text)).2 := by
  intro h
  have hcut := h "data:你\n".toList [[100, 97, 116, 97, 58, 0xE4], [0xBD, 0xA0, 10]] (by decide)
  revert hcut
  decide

end SseBuffer

end OhMyClaw
