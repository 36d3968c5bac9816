import OhMyClaw.Lib.Bytes

/-!
# What a tool returns to the model

Control characters are removed, and of a text that is too long the head and the tail are kept
around a marker with the number of bytes left out.  Both cuts move to a character boundary, the
head's down and the tail's up; the number is computed from where they were meant to be.

    truncate_cut   what a text that is too long comes out as
    sanitize_iff   when the number in the marker is right
-/

namespace OhMyClaw

namespace Sanitize

def MAX_OUTPUT_BYTES : Nat := 16 * 1024

/-- `char::is_control`: the Unicode category `Cc`. -/
def isControl (c : Char) : Bool := c.toNat < 0x20 || (0x7F ≤ c.toNat && c.toNat ≤ 0x9F)

def clean (raw : List Char) : List Char := raw.filter fun c => !isControl c || c = '\n' || c = '\t'

/-- The loop that moves a position down. -/
def floorCharBoundary (s : List Char) : Nat → Nat
  | 0 => 0
  | n + 1 => if Bytes.isCharBoundary s (n + 1) then n + 1 else floorCharBoundary s n

def floorCharBoundarySlice (s : List Char) (n : Nat) : Option (List Char) :=
  if Bytes.len s ≤ n then some s else Bytes.sliceTo s (floorCharBoundary s n)

/-- The loop that moves a position up; `left` bytes are behind it. -/
def ceilCharBoundary (s : List Char) : Nat → Nat → Nat
  | 0, n => n
  | left + 1, n => if Bytes.isCharBoundary s n then n else ceilCharBoundary s left (n + 1)

def ceilCharBoundarySlice (s : List Char) (n : Nat) : Option (List Char) :=
  if Bytes.len s ≤ n then some [] else Bytes.sliceFrom s (ceilCharBoundary s (Bytes.len s - n) n)

def headBytes : Nat := MAX_OUTPUT_BYTES * 2 / 3

def tailBytes : Nat := MAX_OUTPUT_BYTES - headBytes

/-- What an output is put together from. -/
inductive Output where
  | whole (text : List Char)
  | cut (head : List Char) (omitted : Nat) (tail : List Char)
deriving DecidableEq, Repr

def marker (omitted : Nat) : List Char :=
  "\n\n…[输出过长，已截断 ".toList ++ (toString omitted).toList ++ " 字节]…\n\n".toList

def Output.text : Output → List Char
  | .whole text => text
  | .cut head omitted tail => head ++ marker omitted ++ tail

def truncate (cleaned : List Char) : Option Output :=
  if Bytes.len cleaned ≤ MAX_OUTPUT_BYTES then some (.whole cleaned)
  else do
    let headStr ← floorCharBoundarySlice cleaned headBytes
    let tailStart := Bytes.len cleaned - tailBytes
    let tailStr ← ceilCharBoundarySlice cleaned tailStart
    some (.cut headStr (Bytes.len cleaned - headBytes - tailBytes) tailStr)

/-- The sanitized output; `none` where a slice ends the program. -/
def sanitize (raw : List Char) : Option (List Char) := (truncate (clean raw)).map Output.text

/-! ## The two cuts -/

theorem floorCharBoundary_le (s : List Char) (n : Nat) : floorCharBoundary s n ≤ n := by
  induction n with
  | zero => exact le_rfl
  | succ n ih =>
    rw [floorCharBoundary]
    split
    · exact le_rfl
    · omega

theorem floorCharBoundary_boundary (s : List Char) (n : Nat) :
    Bytes.isCharBoundary s (floorCharBoundary s n) = true := by
  induction n with
  | zero => exact Bytes.isCharBoundary_zero s
  | succ n ih =>
    rw [floorCharBoundary]
    split
    · assumption
    · exact ih

theorem floorCharBoundary_eq_self {s : List Char} {n : Nat} :
    floorCharBoundary s n = n ↔ Bytes.isCharBoundary s n = true := by
  constructor
  · intro h
    rw [← h]
    exact floorCharBoundary_boundary s n
  · intro h
    cases n with
    | zero => rfl
    | succ n => rw [floorCharBoundary, if_pos h]

theorem le_ceilCharBoundary (s : List Char) (left n : Nat) : n ≤ ceilCharBoundary s left n := by
  induction left generalizing n with
  | zero => exact le_rfl
  | succ left ih =>
    rw [ceilCharBoundary]
    split
    · exact le_rfl
    · exact (Nat.le_succ n).trans (ih (n + 1))

theorem ceilCharBoundary_boundary (s : List Char) (left n : Nat) (h : n + left = Bytes.len s) :
    Bytes.isCharBoundary s (ceilCharBoundary s left n) = true := by
  induction left generalizing n with
  | zero =>
    obtain rfl : n = Bytes.len s := h
    exact Bytes.isCharBoundary_len s
  | succ left ih =>
    rw [ceilCharBoundary]
    split
    · assumption
    · exact ih (n + 1) (by omega)

theorem ceilCharBoundary_eq_self {s : List Char} {left n : Nat} (h : n + left = Bytes.len s) :
    ceilCharBoundary s left n = n ↔ Bytes.isCharBoundary s n = true := by
  constructor
  · intro hself
    rw [← hself]
    exact ceilCharBoundary_boundary s left n h
  · intro hn
    cases left with
    | zero => rfl
    | succ left => rw [ceilCharBoundary, if_pos hn]

/-! ## The parts of a text that is too long -/

theorem headBytes_add_tailBytes : headBytes + tailBytes = MAX_OUTPUT_BYTES := rfl

/-- A text that is too long is a head, what is left out and a tail; the bytes left out are those
between the two moved cuts. -/
theorem truncate_cut {cleaned : List Char} (h : MAX_OUTPUT_BYTES < Bytes.len cleaned) :
    ∃ head mid tail,
      truncate cleaned = some (.cut head (Bytes.len cleaned - headBytes - tailBytes) tail) ∧
      cleaned = head ++ (mid ++ tail) ∧
      Bytes.len head = floorCharBoundary cleaned headBytes ∧
      Bytes.len head + Bytes.len mid =
        ceilCharBoundary cleaned tailBytes (Bytes.len cleaned - tailBytes) := by
  have hmax := headBytes_add_tailBytes
  have htail : Bytes.len cleaned - (Bytes.len cleaned - tailBytes) = tailBytes := by omega
  have hpos : 0 < tailBytes := by decide
  obtain ⟨head, rest, hhead, hheadLen⟩ :=
    Bytes.isCharBoundary_iff.1 (floorCharBoundary_boundary cleaned headBytes)
  obtain ⟨front, tail, hfront, hfrontLen⟩ := Bytes.isCharBoundary_iff.1
    (ceilCharBoundary_boundary cleaned tailBytes (Bytes.len cleaned - tailBytes) (by omega))
  -- the head's cut is not behind the tail's
  have hle : Bytes.len head ≤ Bytes.len front := by
    have hfloor := floorCharBoundary_le cleaned headBytes
    have hceil := le_ceilCharBoundary cleaned tailBytes (Bytes.len cleaned - tailBytes)
    omega
  obtain ⟨mid, hmid, hrest⟩ := Bytes.prefix_of_len_le (hhead.symm.trans hfront) hle
  refine ⟨head, mid, tail, ?_, ?_, hheadLen, ?_⟩
  · have hheadSlice : floorCharBoundarySlice cleaned headBytes = some head := by
      rw [floorCharBoundarySlice, if_neg (by omega)]
      exact Bytes.sliceTo_eq_some.2 ⟨rest, hhead, hheadLen⟩
    have htailSlice : ceilCharBoundarySlice cleaned (Bytes.len cleaned - tailBytes) = some tail := by
      rw [ceilCharBoundarySlice, if_neg (by omega), htail]
      exact Bytes.sliceFrom_eq_some.2 ⟨front, hfront, hfrontLen⟩
    rw [truncate, if_neg (by omega), hheadSlice]
    show (ceilCharBoundarySlice cleaned (Bytes.len cleaned - tailBytes)).bind _ = _
    rw [htailSlice]
    rfl
  · rw [hhead, hrest]
  · rw [← hfrontLen, hmid, Bytes.len_append]

/-! ## What the marker says -/

/-- The whole text where it fits; otherwise a prefix and a suffix that do not overlap and fit, and
the number of bytes between them. -/
def Faithful (cleaned : List Char) : Output → Prop
  | .whole text => Bytes.len cleaned ≤ MAX_OUTPUT_BYTES ∧ text = cleaned
  | .cut head omitted tail =>
    MAX_OUTPUT_BYTES < Bytes.len cleaned ∧
      ∃ mid, cleaned = head ++ (mid ++ tail) ∧ Bytes.len head + Bytes.len tail ≤ MAX_OUTPUT_BYTES ∧
        omitted = Bytes.len mid

/-- The output is put together faithfully and holds no control character but line feeds and tabs. -/
def Sanitized (raw : List Char) : Prop :=
  ∃ out, truncate (clean raw) = some out ∧ sanitize raw = some out.text ∧ Faithful (clean raw) out ∧
    ∀ c ∈ out.text, isControl c = true → c = '\n' ∨ c = '\t'

/-- Both cuts are where they were meant to be. -/
def Aligned (cleaned : List Char) : Prop :=
  Bytes.isCharBoundary cleaned headBytes = true ∧
    Bytes.isCharBoundary cleaned (Bytes.len cleaned - tailBytes) = true

theorem truncate_whole {cleaned : List Char} (h : Bytes.len cleaned ≤ MAX_OUTPUT_BYTES) :
    truncate cleaned = some (.whole cleaned) := if_pos h

/-- The cut texts always fit, and the number is the one of the bytes left out when neither cut
moves. -/
theorem faithful_iff_aligned {cleaned : List Char} (h : MAX_OUTPUT_BYTES < Bytes.len cleaned) {out : Output}
    (hout : truncate cleaned = some out) : Faithful cleaned out ↔ Aligned cleaned := by
  have hmax := headBytes_add_tailBytes
  obtain ⟨head, mid, tail, hcut, hsplit, hhead, hmid⟩ := truncate_cut h
  obtain rfl := Option.some.inj (hcut.symm.trans hout)
  have hlen : Bytes.len cleaned = Bytes.len head + (Bytes.len mid + Bytes.len tail) := by
    rw [← Bytes.len_append, ← Bytes.len_append, ← hsplit]
  have hfloor := floorCharBoundary_le cleaned headBytes
  have hceil := le_ceilCharBoundary cleaned tailBytes (Bytes.len cleaned - tailBytes)
  have hrest : Bytes.len cleaned - tailBytes + tailBytes = Bytes.len cleaned := by omega
  rw [Aligned, ← floorCharBoundary_eq_self, ← ceilCharBoundary_eq_self hrest]
  constructor
  · rintro ⟨-, mid', hsplit', -, homitted⟩
    have hlen' : Bytes.len cleaned = Bytes.len head + (Bytes.len mid' + Bytes.len tail) := by
      rw [← Bytes.len_append, ← Bytes.len_append, ← hsplit']
    omega
  · rintro ⟨hhead', htail'⟩
    exact ⟨h, mid, hsplit, by omega, by omega⟩

theorem isControl_of_mem_clean {raw : List Char} {c : Char} (hc : c ∈ clean raw) (h : isControl c = true) :
    c = '\n' ∨ c = '\t' := by
  have hkept := (List.mem_filter.1 hc).2
  simpa [h] using hkept

theorem isControl_of_mem_marker {omitted : Nat} {c : Char} (hc : c ∈ marker omitted)
    (h : isControl c = true) : c = '\n' ∨ c = '\t' := by
  have htext : ("\n\n…[输出过长，已截断 ".toList ++ " 字节]…\n\n".toList).all
      (fun c => !isControl c || c = '\n') = true := by decide
  have htext := List.all_eq_true.1 htext
  have hfixed : c ∈ "\n\n…[输出过长，已截断 ".toList ++ " 字节]…\n\n".toList → c = '\n' := by
    intro hmem
    have := htext c hmem
    simpa [h] using this
  rcases List.mem_append.1 hc with hc | hc
  · rcases List.mem_append.1 hc with hc | hc
    · exact Or.inl (hfixed (List.mem_append_left _ hc))
    · rw [Nat.toString_eq_repr, Nat.toList_repr] at hc
      have hdigit := Nat.isDigit_of_mem_toDigits (by omega) (by omega) hc
      have hrange : 0x30 ≤ c.toNat ∧ c.toNat ≤ 0x39 := by
        simpa [Char.isDigit, UInt32.le_iff_toNat_le] using hdigit
      exfalso
      simp only [isControl, Bool.or_eq_true, Bool.and_eq_true, decide_eq_true_eq] at h
      omega
  · exact Or.inl (hfixed (List.mem_append_right _ hc))

/-- Every output is free of control characters but line feeds and tabs. -/
theorem isControl_of_mem_text {raw : List Char} {out : Output} (hout : truncate (clean raw) = some out) {c : Char}
    (hc : c ∈ out.text) (h : isControl c = true) : c = '\n' ∨ c = '\t' := by
  by_cases hlen : Bytes.len (clean raw) ≤ MAX_OUTPUT_BYTES
  · obtain rfl := Option.some.inj ((truncate_whole hlen).symm.trans hout)
    exact isControl_of_mem_clean hc h
  · obtain ⟨head, mid, tail, hcut, hsplit, -⟩ := truncate_cut (Nat.lt_of_not_le hlen)
    obtain rfl := Option.some.inj (hcut.symm.trans hout)
    have hkept : c ∈ head ∨ c ∈ tail → c ∈ clean raw := by
      intro hmem
      rw [hsplit]
      rcases hmem with hmem | hmem
      · exact List.mem_append_left _ hmem
      · exact List.mem_append_right _ (List.mem_append_right _ hmem)
    rcases List.mem_append.1 hc with hc | hc
    · rcases List.mem_append.1 hc with hc | hc
      · exact isControl_of_mem_clean (hkept (Or.inl hc)) h
      · exact isControl_of_mem_marker hc h
    · exact isControl_of_mem_clean (hkept (Or.inr hc)) h

/-- The output is what it should be exactly when the text fits or neither cut falls inside a
character. -/
theorem sanitize_iff (raw : List Char) :
    Sanitized raw ↔ Bytes.len (clean raw) ≤ MAX_OUTPUT_BYTES ∨ Aligned (clean raw) := by
  by_cases hlen : Bytes.len (clean raw) ≤ MAX_OUTPUT_BYTES
  · have hwhole := truncate_whole hlen
    refine iff_of_true ⟨_, hwhole, ?_, ⟨hlen, rfl⟩, fun c => isControl_of_mem_text hwhole⟩ (Or.inl hlen)
    rw [sanitize, hwhole]
    rfl
  · have hlong := Nat.lt_of_not_le hlen
    constructor
    · rintro ⟨out, hout, -, hfaithful, -⟩
      exact Or.inr ((faithful_iff_aligned hlong hout).1 hfaithful)
    · intro h
      have haligned := h.resolve_left hlen
      obtain ⟨head, mid, tail, hcut, -⟩ := truncate_cut hlong
      refine ⟨_, hcut, ?_, (faithful_iff_aligned hlong hcut).2 haligned, fun c => isControl_of_mem_text hcut⟩
      rw [sanitize, hcut]
      rfl

/-- A long text of three-byte characters: the head's cut falls inside one. -/
theorem sanitize_miscounts : ¬ Sanitized (List.replicate 16384 '中') := by
  rintro ⟨out, hout, -, hfaithful, -⟩
  have hclean : clean (List.replicate 16384 '中') = List.replicate 16384 '中' :=
    List.filter_replicate_of_pos (by decide)
  rw [hclean] at hout hfaithful
  have hlong : MAX_OUTPUT_BYTES < Bytes.len (List.replicate 16384 '中') := by
    rw [Bytes.len_replicate]
    decide
  have haligned := ((faithful_iff_aligned hlong hout).1 hfaithful).1
  have hdvd := Bytes.isCharBoundary_replicate haligned
  revert hdvd
  decide

end Sanitize

end OhMyClaw
