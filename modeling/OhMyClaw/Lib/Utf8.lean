import Mathlib.Tactic.IntervalCases

/-!
# Lossy UTF-8 decoding, in one piece and in chunks

`fromUtf8Lossy` is the decoder of `String::from_utf8_lossy`: a maximal prefix of a
well-formed sequence that is not completed, and every byte that starts none, becomes one
U+FFFD.  It is given as an automaton, one byte a step.

Decoding the chunks of a stream one by one is not decoding the stream: a character whose
bytes lie in several chunks comes out as two or more U+FFFD.  `decodeChunks_garbled` says
that this is all that happens, and to exactly the characters a chunk boundary cuts.
-/

namespace Utf8

/-- The UTF-8 bytes of a text. -/
def encode (text : List Char) : List UInt8 := text.flatMap String.utf8EncodeChar

def replacement : Char := Char.ofNat 0xFFFD

/-- A sequence under way: the value collected so far, the range its next byte must lie in and
how many further continuation bytes follow that one. -/
structure Pending where
  value : Nat
  lo : Nat
  hi : Nat
  more : Nat
deriving DecidableEq, Repr

/-- A byte outside a sequence. -/
def first (b : Nat) : List Char × Option Pending :=
  if b < 0x80 then ([Char.ofNat b], none)
  else if b < 0xC2 then ([replacement], none)
  else if b < 0xE0 then ([], some { value := b - 0xC0, lo := 0x80, hi := 0xBF, more := 0 })
  else if b = 0xE0 then ([], some { value := b - 0xE0, lo := 0xA0, hi := 0xBF, more := 1 })
  else if b = 0xED then ([], some { value := b - 0xE0, lo := 0x80, hi := 0x9F, more := 1 })
  else if b < 0xF0 then ([], some { value := b - 0xE0, lo := 0x80, hi := 0xBF, more := 1 })
  else if b = 0xF0 then ([], some { value := b - 0xF0, lo := 0x90, hi := 0xBF, more := 2 })
  else if b < 0xF4 then ([], some { value := b - 0xF0, lo := 0x80, hi := 0xBF, more := 2 })
  else if b = 0xF4 then ([], some { value := b - 0xF0, lo := 0x80, hi := 0x8F, more := 2 })
  else ([replacement], none)

/-- One byte.  A byte that does not fit ends the sequence under way and starts afresh. -/
def step : Option Pending → Nat → List Char × Option Pending
  | none, b => first b
  | some p, b =>
    if p.lo ≤ b ∧ b ≤ p.hi then
      let value := p.value * 64 + (b - 0x80)
      match p.more with
      | 0 => ([Char.ofNat value], none)
      | more + 1 => ([], some { value, lo := 0x80, hi := 0xBF, more })
    else (replacement :: (first b).1, (first b).2)

def feed : Option Pending → List UInt8 → List Char × Option Pending
  | p, [] => ([], p)
  | p, b :: bs =>
    let r := step p b.toNat
    let t := feed r.2 bs
    (r.1 ++ t.1, t.2)

def finish : Option Pending → List Char
  | none => []
  | some _ => [replacement]

def fromUtf8Lossy (bs : List UInt8) : List Char :=
  (feed none bs).1 ++ finish (feed none bs).2

/-- Every chunk decoded on its own. -/
def decodeChunks (chunks : List (List UInt8)) : List Char := chunks.flatMap fromUtf8Lossy

/-! ## The automaton on one character -/

theorem feed_append (p : Option Pending) (xs ys : List UInt8) :
    feed p (xs ++ ys) =
      ((feed p xs).1 ++ (feed (feed p xs).2 ys).1, (feed (feed p xs).2 ys).2) := by
  induction xs generalizing p with
  | nil => simp [feed]
  | cons x xs ih => simp [feed, ih]

/-- A byte that can only stand inside a sequence. -/
def IsContinuation (b : UInt8) : Prop := 0x80 ≤ b.toNat ∧ b.toNat ≤ 0xBF

theorem step_continuation {b : UInt8} (h : IsContinuation b) :
    step none b.toNat = ([replacement], none) := by
  obtain ⟨h₁, h₂⟩ := h
  simp only [step, first]
  rw [if_neg (by omega), if_pos (by omega)]

/-- Outside a sequence, continuation bytes are replaced one by one. -/
theorem feed_continuations {bs : List UInt8} (h : ∀ b ∈ bs, IsContinuation b) :
    feed none bs = (List.replicate bs.length replacement, none) := by
  induction bs with
  | nil => rfl
  | cons b bs ih =>
    have hb := step_continuation (h b List.mem_cons_self)
    have hbs := ih fun x hx => h x (List.mem_cons_of_mem _ hx)
    simp [feed, hb, hbs, List.replicate_succ]

theorem char_range (c : Char) :
    c.toNat < 0xD800 ∨ (0xDFFF < c.toNat ∧ c.toNat < 0x110000) := c.valid

/-- What the automaton does on the bytes of `c`: it ends with `c` and nothing pending, it has
written nothing and waits before that, and every byte but the first is a continuation. -/
structure Decodes (c : Char) (bs : List UInt8) : Prop where
  whole : feed none bs = ([c], none)
  part : ∀ p q, bs = p ++ q → p ≠ [] → q ≠ [] → ∃ pend, feed none p = ([], some pend)
  tail : ∀ b ∈ bs.tail, IsContinuation b

/-- The bytes `bs` complete the sequence under way to the value `v`. -/
def Completes : Pending → List UInt8 → Nat → Prop
  | _, [], _ => False
  | p, [b], v => p.lo ≤ b.toNat ∧ b.toNat ≤ p.hi ∧ p.more = 0 ∧ v = p.value * 64 + (b.toNat - 0x80)
  | p, b :: b' :: bs, v =>
    p.lo ≤ b.toNat ∧ b.toNat ≤ p.hi ∧ ∃ more, p.more = more + 1 ∧
      Completes { value := p.value * 64 + (b.toNat - 0x80), lo := 0x80, hi := 0xBF, more } (b' :: bs) v

theorem feed_completes {p : Pending} {bs : List UInt8} {v : Nat} (h : Completes p bs v) :
    feed (some p) bs = ([Char.ofNat v], none) := by
  induction p, bs, v using Completes.induct with
  | case1 p v => exact h.elim
  | case2 p b v =>
    obtain ⟨hlo, hhi, hmore, hv⟩ := h
    simp only [feed, step, hlo, hhi, and_self, if_true, hmore, List.append_nil, hv]
  | case3 p b b' bs v ih =>
    obtain ⟨hlo, hhi, more, hmore, hrest⟩ := h
    have := ih more hrest
    simp only [feed, step, hlo, hhi, and_self, if_true, hmore] at this ⊢
    simp [this]

theorem feed_completes_part {p : Pending} {bs : List UInt8} {v : Nat} (h : Completes p bs v) :
    ∀ u w, bs = u ++ w → w ≠ [] → ∃ pend, feed (some p) u = ([], some pend) := by
  induction p, bs, v using Completes.induct with
  | case1 p v => exact h.elim
  | case2 p b v =>
    intro u w huw hw
    cases u with
    | nil => exact ⟨p, rfl⟩
    | cons x u =>
      simp only [List.cons_append, List.cons.injEq, List.nil_eq, List.append_eq_nil_iff] at huw
      exact absurd huw.2.2 hw
  | case3 p b b' bs v ih =>
    obtain ⟨hlo, hhi, more, hmore, hrest⟩ := h
    intro u w huw hw
    cases u with
    | nil => exact ⟨p, rfl⟩
    | cons x u =>
      simp only [List.cons_append, List.cons.injEq] at huw
      obtain ⟨rfl, huw⟩ := huw
      obtain ⟨pend, hpend⟩ := ih more hrest u w huw hw
      refine ⟨pend, ?_⟩
      simp only [feed, step, hlo, hhi, and_self, if_true, hmore]
      simp [hpend]

theorem decodes_of_completes {c : Char} {b : UInt8} {bs : List UInt8} {p : Pending}
    (hfirst : first b.toNat = ([], some p)) (h : Completes p bs c.toNat)
    (htail : ∀ x ∈ bs, IsContinuation x) : Decodes c (b :: bs) := by
  refine ⟨?_, ?_, htail⟩
  · simp [feed, step, hfirst, feed_completes h, Char.ofNat_toNat]
  · intro u w huw hu hw
    cases u with
    | nil => exact absurd rfl hu
    | cons x u =>
      simp only [List.cons_append, List.cons.injEq] at huw
      obtain ⟨rfl, huw⟩ := huw
      obtain ⟨pend, hpend⟩ := feed_completes_part h u w huw hw
      exact ⟨pend, by simp [feed, step, hfirst, hpend]⟩

theorem toNat_ofNat_of_lt {n : Nat} (h : n < 256) : (UInt8.ofNat n).toNat = n := by
  rw [UInt8.toNat_ofNat']
  exact Nat.mod_eq_of_lt h

theorem decodes_one {c : Char} (h : c.toNat < 0x80) : Decodes c [UInt8.ofNat c.toNat] := by
  have hb : (UInt8.ofNat c.toNat).toNat = c.toNat := toNat_ofNat_of_lt (by omega)
  refine ⟨?_, ?_, by simp⟩
  · simp [feed, step, first, hb, h, Char.ofNat_toNat]
  · intro p q hpq hp hq
    have hlen := congrArg List.length hpq
    simp only [List.length_append, List.length_singleton] at hlen
    have := List.length_pos_iff.2 hp
    have := List.length_pos_iff.2 hq
    omega

theorem decodes_two {c : Char} (h₁ : 0x80 ≤ c.toNat) (h₂ : c.toNat < 0x800) :
    Decodes c [UInt8.ofNat (c.toNat / 64 % 0x20 + 0xC0), UInt8.ofNat (c.toNat % 0x40 + 0x80)] := by
  have hb₀ : (UInt8.ofNat (c.toNat / 64 % 0x20 + 0xC0)).toNat = c.toNat / 64 + 0xC0 := by
    rw [toNat_ofNat_of_lt (by omega)]
    omega
  have hb₁ : (UInt8.ofNat (c.toNat % 0x40 + 0x80)).toNat = c.toNat % 64 + 0x80 :=
    toNat_ofNat_of_lt (by omega)
  refine decodes_of_completes
    (p := { value := c.toNat / 64, lo := 0x80, hi := 0xBF, more := 0 }) ?_ ?_ ?_
  · rw [hb₀, first, if_neg (by omega), if_neg (by omega), if_pos (by omega), Nat.add_sub_cancel]
  · simp only [Completes, hb₁]
    exact ⟨by omega, by omega, trivial, by omega⟩
  · simp only [List.mem_singleton, forall_eq, IsContinuation, hb₁]
    omega

/-- The first byte of a three-byte sequence. -/
theorem first_three {n : Nat} (h : n < 16) :
    first (n + 0xE0) = ([], some
      { value := n, lo := if n = 0 then 0xA0 else 0x80, hi := if n = 13 then 0x9F else 0xBF, more := 1 }) := by
  interval_cases n <;> rfl

/-- The first byte of a four-byte sequence. -/
theorem first_four {n : Nat} (h : n < 5) :
    first (n + 0xF0) = ([], some
      { value := n, lo := if n = 0 then 0x90 else 0x80, hi := if n = 4 then 0x8F else 0xBF, more := 2 }) := by
  interval_cases n <;> rfl

theorem decodes_three {c : Char} (h₁ : 0x800 ≤ c.toNat) (h₂ : c.toNat < 0x10000) :
    Decodes c [UInt8.ofNat (c.toNat / 4096 % 0x10 + 0xE0),
      UInt8.ofNat (c.toNat / 64 % 0x40 + 0x80), UInt8.ofNat (c.toNat % 0x40 + 0x80)] := by
  have hb₀ : (UInt8.ofNat (c.toNat / 4096 % 0x10 + 0xE0)).toNat = c.toNat / 4096 + 0xE0 := by
    rw [toNat_ofNat_of_lt (by omega)]
    omega
  have hb₁ : (UInt8.ofNat (c.toNat / 64 % 0x40 + 0x80)).toNat = c.toNat / 64 % 64 + 0x80 :=
    toNat_ofNat_of_lt (by omega)
  have hb₂ : (UInt8.ofNat (c.toNat % 0x40 + 0x80)).toNat = c.toNat % 64 + 0x80 :=
    toNat_ofNat_of_lt (by omega)
  have hrange := char_range c
  refine decodes_of_completes (hb₀ ▸ first_three (by omega)) ?_ ?_
  · refine ⟨?_, ?_, 0, rfl, ?_⟩
    · simp only [hb₁]
      split <;> omega
    · simp only [hb₁]
      split <;> omega
    · simp only [Completes, hb₁, hb₂]
      exact ⟨by omega, by omega, trivial, by omega⟩
  · simp only [List.mem_cons, List.not_mem_nil, or_false, forall_eq_or_imp, forall_eq,
      IsContinuation, hb₁, hb₂]
    omega

theorem decodes_four {c : Char} (h₁ : 0x10000 ≤ c.toNat) :
    Decodes c [UInt8.ofNat (c.toNat / 262144 % 0x08 + 0xF0),
      UInt8.ofNat (c.toNat / 4096 % 0x40 + 0x80), UInt8.ofNat (c.toNat / 64 % 0x40 + 0x80),
      UInt8.ofNat (c.toNat % 0x40 + 0x80)] := by
  have hrange := char_range c
  have hb₀ : (UInt8.ofNat (c.toNat / 262144 % 0x08 + 0xF0)).toNat = c.toNat / 262144 + 0xF0 := by
    rw [toNat_ofNat_of_lt (by omega)]
    omega
  have hb₁ : (UInt8.ofNat (c.toNat / 4096 % 0x40 + 0x80)).toNat = c.toNat / 4096 % 64 + 0x80 :=
    toNat_ofNat_of_lt (by omega)
  have hb₂ : (UInt8.ofNat (c.toNat / 64 % 0x40 + 0x80)).toNat = c.toNat / 64 % 64 + 0x80 :=
    toNat_ofNat_of_lt (by omega)
  have hb₃ : (UInt8.ofNat (c.toNat % 0x40 + 0x80)).toNat = c.toNat % 64 + 0x80 :=
    toNat_ofNat_of_lt (by omega)
  refine decodes_of_completes (hb₀ ▸ first_four (by omega)) ?_ ?_
  · refine ⟨?_, ?_, 1, rfl, ?_, ?_, 0, rfl, ?_⟩
    · simp only [hb₁]
      split <;> omega
    · simp only [hb₁]
      split <;> omega
    · simp only [hb₂]
      omega
    · simp only [hb₂]
      omega
    · simp only [Completes, hb₁, hb₂, hb₃]
      exact ⟨by omega, by omega, trivial, by omega⟩
  · simp only [List.mem_cons, List.not_mem_nil, or_false, forall_eq_or_imp, forall_eq,
      IsContinuation, hb₁, hb₂, hb₃]
    omega

/-- The automaton decodes the bytes of every character. -/
theorem decodes_utf8EncodeChar (c : Char) : Decodes c (String.utf8EncodeChar c) := by
  simp only [String.utf8EncodeChar]
  split
  · exact decodes_one (by show c.val.toNat < _; omega)
  · split
    · exact decodes_two (by show _ ≤ c.val.toNat; omega) (by show c.val.toNat < _; omega)
    · split
      · exact decodes_three (by show _ ≤ c.val.toNat; omega) (by show c.val.toNat < _; omega)
      · exact decodes_four (by show _ ≤ c.val.toNat; omega)

theorem encode_cons (c : Char) (text : List Char) :
    encode (c :: text) = String.utf8EncodeChar c ++ encode text :=
  List.flatMap_cons

theorem feed_encode (text : List Char) : feed none (encode text) = (text, none) := by
  induction text with
  | nil => rfl
  | cons c text ih =>
    rw [encode_cons, feed_append, (decodes_utf8EncodeChar c).whole, ih]
    rfl

theorem fromUtf8Lossy_encode (text : List Char) : fromUtf8Lossy (encode text) = text := by
  simp [fromUtf8Lossy, feed_encode, finish]

/-- `String::from_utf8`: bytes that are the encoding of a text are decoded, others are refused. -/
def fromUtf8 (bs : List UInt8) : Option (List Char) :=
  let text := fromUtf8Lossy bs
  if encode text = bs then some text else none

theorem fromUtf8_encode (text : List Char) : fromUtf8 (encode text) = some text := by
  simp [fromUtf8, fromUtf8Lossy_encode]

theorem encode_injective : Function.Injective encode := by
  intro s t h
  have := fromUtf8_encode s
  rw [h, fromUtf8_encode] at this
  exact (Option.some.inj this).symm

/-- An ASCII byte is a character of its own. -/
theorem eq_of_mem_ascii {c : Char} {b : UInt8} (h : b ∈ String.utf8EncodeChar c) (hb : b.toNat < 0x80) :
    c = Char.ofNat b.toNat := by
  have hdecodes := decodes_utf8EncodeChar c
  have hfeed : feed none [b] = ([Char.ofNat b.toNat], none) := by simp [feed, step, first, hb]
  cases hbytes : String.utf8EncodeChar c with
  | nil => simp [hbytes] at h
  | cons b₀ tail =>
    rw [hbytes] at h hdecodes
    rcases List.mem_cons.1 h with rfl | htail
    · cases tail with
      | nil =>
        have hwhole := hdecodes.whole
        rw [hfeed] at hwhole
        exact (List.singleton_inj.1 (Prod.mk.inj hwhole).1).symm
      | cons b₁ tail =>
        obtain ⟨pend, hpend⟩ := hdecodes.part [b] (b₁ :: tail) rfl (by simp) (by simp)
        rw [hfeed] at hpend
        exact absurd (Prod.mk.inj hpend).1 (by simp)
    · have := (hdecodes.tail b htail).1
      omega

/-- The byte of an ASCII character is in the encoding of a text only with that character. -/
theorem mem_of_mem_encode {text : List Char} {b : UInt8} (h : b ∈ encode text) (hb : b.toNat < 0x80) :
    Char.ofNat b.toNat ∈ text := by
  obtain ⟨c, hc, hmem⟩ := List.mem_flatMap.1 h
  exact eq_of_mem_ascii hmem hb ▸ hc

/-! ## A stream in chunks -/

/-- Some chunk ends `k` bytes into the stream. -/
def Boundary (chunks : List (List UInt8)) (k : Nat) : Prop :=
  ∃ front back, chunks = front ++ back ∧ front.flatten.length = k

/-- A text whose characters are marked as cut or not, and what the chunks of its bytes decode
to: a cut character, which is never ASCII, has become two or more U+FFFD. -/
inductive Garbled : List (Char × Bool) → List Char → Prop
  | nil : Garbled [] []
  | keep {c ms cs} : Garbled ms cs → Garbled ((c, false) :: ms) (c :: cs)
  | cut {c n ms cs} : 0x80 ≤ c.toNat → Garbled ms cs →
      Garbled ((c, true) :: ms) (List.replicate (n + 2) replacement ++ cs)

theorem fromUtf8Lossy_nil : fromUtf8Lossy [] = [] := rfl

theorem decodeChunks_of_flatten_nil {chunks : List (List UInt8)} (h : chunks.flatten = []) :
    decodeChunks chunks = [] := by
  rw [List.flatten_eq_nil_iff] at h
  rw [decodeChunks, List.flatMap_eq_nil_iff]
  intro bs hbs
  rw [h bs hbs, fromUtf8Lossy_nil]

/-- The chunks of a stream, taken apart behind its first `xs.length` bytes: `u` ends the part
in front, `v` starts the part behind. -/
theorem split_chunks {chunks : List (List UInt8)} {xs ys : List UInt8}
    (h : chunks.flatten = xs ++ ys) (hxs : xs ≠ []) :
    ∃ front u v back, chunks = front ++ (u ++ v) :: back ∧ xs = front.flatten ++ u ∧ u ≠ [] ∧
      ys = (v :: back).flatten := by
  induction chunks generalizing xs with
  | nil =>
    simp only [List.flatten_nil, List.nil_eq, List.append_eq_nil_iff] at h
    exact absurd h.1 hxs
  | cons ch chunks ih =>
    rw [List.flatten_cons] at h
    rcases List.append_eq_append_iff.1 h with ⟨as, hxs', hrest⟩ | ⟨bs, hch, hys⟩
    · by_cases has : as = []
      · subst has
        simp only [List.append_nil, List.nil_append] at hxs' hrest
        refine ⟨[], ch, [], chunks, by simp, by simpa using hxs', ?_, by simpa using hrest.symm⟩
        rw [← hxs']
        exact hxs
      · obtain ⟨front, u, v, back, rfl, rfl, hu, rfl⟩ := ih hrest has
        refine ⟨ch :: front, u, v, back, rfl, ?_, hu, rfl⟩
        rw [hxs', List.flatten_cons, List.append_assoc]
    · refine ⟨[], xs, bs, chunks, by rw [hch]; rfl, by simp, hxs, ?_⟩
      rw [hys, List.flatten_cons]

theorem decodeChunks_append (xs ys : List (List UInt8)) :
    decodeChunks (xs ++ ys) = decodeChunks xs ++ decodeChunks ys :=
  List.flatMap_append

theorem decodeChunks_cons (ch : List UInt8) (chunks : List (List UInt8)) :
    decodeChunks (ch :: chunks) = fromUtf8Lossy ch ++ decodeChunks chunks :=
  List.flatMap_cons

/-- Bytes that leave nothing pending are decoded independently of what follows. -/
theorem fromUtf8Lossy_append {u v : List UInt8} {out : List Char} (h : feed none u = (out, none)) :
    fromUtf8Lossy (u ++ v) = out ++ fromUtf8Lossy v := by
  simp [fromUtf8Lossy, feed_append, h]

theorem decodeChunks_continuations {chunks : List (List UInt8)}
    (h : ∀ b ∈ chunks.flatten, IsContinuation b) :
    decodeChunks chunks = List.replicate chunks.flatten.length replacement := by
  induction chunks with
  | nil => rfl
  | cons ch chunks ih =>
    rw [List.flatten_cons] at h ⊢
    have hch : fromUtf8Lossy ch = List.replicate ch.length replacement := by
      have := feed_continuations fun b hb => h b (List.mem_append_left _ hb)
      simp [fromUtf8Lossy, this, finish]
    rw [decodeChunks_cons, hch, ih fun b hb => h b (List.mem_append_right _ hb), List.length_append,
      List.replicate_append_replicate]

/-- The pieces of a character that is cut off: one U+FFFD for its first piece, one for every
byte in the others. -/
theorem decodeChunks_part {c : Char} {bs : List UInt8} (hd : Decodes c bs)
    {front : List (List UInt8)} {u : List UInt8} (hbs : bs = front.flatten ++ u) (hu : u ≠ [])
    (hfront : front.flatten ≠ []) :
    ∃ m, decodeChunks front = List.replicate (m + 1) replacement := by
  induction front with
  | nil => exact absurd rfl hfront
  | cons ch front ih =>
    rw [List.flatten_cons] at hbs hfront
    cases ch with
    | nil => exact ih hbs hfront
    | cons b ch =>
      rw [List.append_assoc] at hbs
      obtain ⟨pend, hpend⟩ := hd.part (b :: ch) (front.flatten ++ u) hbs (by simp) (by simp [hu])
      have htail : ∀ x ∈ front.flatten, IsContinuation x := by
        intro x hx
        apply hd.tail
        rw [hbs]
        exact List.mem_append_right _ (List.mem_append_left _ hx)
      refine ⟨front.flatten.length, ?_⟩
      rw [decodeChunks_cons, decodeChunks_continuations htail]
      simp [fromUtf8Lossy, hpend, finish, List.replicate_succ]

theorem feed_end_part {c : Char} {bs p u : List UInt8} (hd : Decodes c bs) (hbs : bs = p ++ u)
    (hp : p ≠ []) : feed none u = (List.replicate u.length replacement, none) := by
  apply feed_continuations
  intro b hb
  apply hd.tail
  cases p with
  | nil => exact absurd rfl hp
  | cons x p =>
    rw [hbs]
    exact List.mem_append_right _ hb

theorem cut_not_ascii {c : Char} {p u : List UInt8} (h : String.utf8EncodeChar c = p ++ u)
    (hp : p ≠ []) (hu : u ≠ []) : 0x80 ≤ c.toNat := by
  by_contra hlt
  have hlen := congrArg List.length h
  simp only [String.utf8EncodeChar] at hlen
  rw [if_pos (by show c.val.toNat ≤ _; change ¬ (128 ≤ c.val.toNat) at hlt; omega)] at hlen
  have := List.length_pos_iff.2 hp
  have := List.length_pos_iff.2 hu
  simp only [List.length_cons, List.length_nil, List.length_append] at hlen
  omega

section Cut

variable {front back : List (List UInt8)} {u v : List UInt8}

/-- A boundary inside the bytes in front is a non-empty piece in front. -/
theorem boundary_inside (hu : u ≠ []) :
    (∃ k, Boundary (front ++ (u ++ v) :: back) k ∧ 0 < k ∧ k < (front.flatten ++ u).length) ↔
      front.flatten ≠ [] := by
  constructor
  · rintro ⟨k, ⟨front₁, back₁, hsplit, rfl⟩, hpos, hlt⟩ hnil
    rw [hnil, List.nil_append] at hlt
    rcases List.append_eq_append_iff.1 hsplit with ⟨as, rfl, has⟩ | ⟨bs, hbs, _⟩
    · cases as with
      | nil => simp [hnil] at hpos
      | cons a as =>
        obtain ⟨rfl, _⟩ := List.cons_eq_cons.1 has
        simp only [List.flatten_append, List.flatten_cons, List.length_append] at hlt
        omega
    · have : front₁.flatten = [] := by
        have hfl : front.flatten = front₁.flatten ++ bs.flatten := by rw [hbs, List.flatten_append]
        rw [hnil] at hfl
        exact (List.append_eq_nil_iff.1 hfl.symm).1
      simp [this] at hpos
  · intro hne
    refine ⟨front.flatten.length, ⟨front, _, rfl, rfl⟩, List.length_pos_iff.2 hne, ?_⟩
    have := List.length_pos_iff.2 hu
    rw [List.length_append]
    omega

/-- Behind those bytes, the boundaries are the ones of the rest. -/
theorem boundary_behind (hu : u ≠ []) {j : Nat} (hj : 0 < j) :
    Boundary (front ++ (u ++ v) :: back) ((front.flatten ++ u).length + j) ↔
      Boundary (v :: back) j := by
  have hupos := List.length_pos_iff.2 hu
  constructor
  · rintro ⟨front₁, back₁, hsplit, hlen⟩
    rcases List.append_eq_append_iff.1 hsplit with ⟨as, rfl, has⟩ | ⟨bs, rfl, _⟩
    · cases as with
      | nil =>
        simp only [List.append_nil, List.length_append] at hlen
        omega
      | cons a as =>
        obtain ⟨rfl, rfl⟩ := List.cons_eq_cons.1 has
        refine ⟨v :: as, back₁, rfl, ?_⟩
        simp only [List.flatten_append, List.flatten_cons, List.length_append] at hlen ⊢
        omega
    · simp only [List.flatten_append, List.length_append] at hlen
      omega
  · rintro ⟨front₂, back₂, hsplit, hlen⟩
    cases front₂ with
    | nil =>
      simp only [List.flatten_nil, List.length_nil] at hlen
      omega
    | cons a as =>
      obtain ⟨rfl, rfl⟩ := List.cons_eq_cons.1 hsplit
      refine ⟨front ++ (u ++ v) :: as, back₂, by simp, ?_⟩
      simp only [List.flatten_append, List.flatten_cons, List.length_append] at hlen ⊢
      omega

end Cut

/-- A chunk ends strictly inside the character `c` that follows the text `pre`. -/
def CutInside (chunks : List (List UInt8)) (pre : List Char) (c : Char) : Prop :=
  ∃ k, Boundary chunks k ∧ (encode pre).length < k ∧ k < (encode (pre ++ [c])).length

section Cut

variable {front back : List (List UInt8)} {u v : List UInt8} {c : Char}

/-- The first character is cut exactly if a piece of it lies in the chunks in front. -/
theorem cutInside_head (henc : String.utf8EncodeChar c = front.flatten ++ u) (hu : u ≠ []) :
    CutInside (front ++ (u ++ v) :: back) [] c ↔ front.flatten ≠ [] := by
  rw [← @boundary_inside front back u v hu, ← henc]
  simp [CutInside, encode]

/-- A later character is cut exactly if it is in what is left behind the first one. -/
theorem cutInside_behind (henc : String.utf8EncodeChar c = front.flatten ++ u) (hu : u ≠ [])
    (pre : List Char) (c' : Char) :
    CutInside (front ++ (u ++ v) :: back) (c :: pre) c' ↔ CutInside (v :: back) pre c' := by
  simp only [CutInside, List.cons_append, encode_cons, List.length_append, henc]
  constructor
  · rintro ⟨k, hk, hlo, hhi⟩
    obtain ⟨j, rfl⟩ : ∃ j, k = (front.flatten ++ u).length + j :=
      ⟨k - (front.flatten ++ u).length, by rw [List.length_append]; omega⟩
    rw [List.length_append] at hlo hhi
    exact ⟨j, (boundary_behind hu (by omega)).1 hk, by omega, by omega⟩
  · rintro ⟨k, hk, hlo, hhi⟩
    refine ⟨(front.flatten ++ u).length + k, (boundary_behind hu (by omega)).2 hk, ?_, ?_⟩
    · rw [List.length_append]
      omega
    · rw [List.length_append]
      omega

/-- The first character, marked if it is cut, in front of what is left. -/
theorem garbled_head (henc : String.utf8EncodeChar c = front.flatten ++ u) (hu : u ≠ [])
    {ms : List (Char × Bool)} (h : Garbled ms (decodeChunks (v :: back))) :
    Garbled ((c, decide (front.flatten ≠ [])) :: ms) (decodeChunks (front ++ (u ++ v) :: back)) := by
  have hd := decodes_utf8EncodeChar c
  rw [decodeChunks_append, decodeChunks_cons]
  rw [decodeChunks_cons] at h
  by_cases hfront : front.flatten = []
  · have hu' : u = String.utf8EncodeChar c := by rw [henc, hfront, List.nil_append]
    have hwhole : feed none u = ([c], none) := by rw [hu']; exact hd.whole
    rw [decodeChunks_of_flatten_nil hfront, fromUtf8Lossy_append hwhole]
    simp only [hfront, ne_eq, not_true_eq_false, decide_false, List.nil_append, List.cons_append]
    exact .keep h
  · obtain ⟨m, hm⟩ := decodeChunks_part hd henc hu hfront
    rw [hm, fromUtf8Lossy_append (feed_end_part hd henc hfront)]
    obtain ⟨n, hn⟩ : ∃ n, u.length = n + 1 :=
      ⟨u.length - 1, by have := List.length_pos_iff.2 hu; omega⟩
    have hrep : List.replicate (m + 1) replacement ++
        (List.replicate u.length replacement ++ fromUtf8Lossy v ++ decodeChunks back) =
        List.replicate (m + n + 2) replacement ++ (fromUtf8Lossy v ++ decodeChunks back) := by
      rw [hn, List.append_assoc, ← List.append_assoc (List.replicate (m + 1) replacement),
        List.replicate_append_replicate]
      congr 2
      omega
    simp only [hfront, ne_eq, not_false_eq_true, decide_true]
    rw [hrep]
    exact .cut (cut_not_ascii henc hfront hu) h

end Cut

/-- Chunk by chunk, a well-formed stream decodes to its text with exactly the characters that a
chunk boundary cuts replaced. -/
theorem decodeChunks_garbled (text : List Char) (chunks : List (List UInt8))
    (h : chunks.flatten = encode text) :
    ∃ ms : List (Char × Bool), ms.map (·.1) = text ∧ Garbled ms (decodeChunks chunks) ∧
      ∀ pre c b post, ms = pre ++ (c, b) :: post → (b = true ↔ CutInside chunks (pre.map (·.1)) c) := by
  induction text generalizing chunks with
  | nil =>
    refine ⟨[], rfl, ?_, by simp⟩
    rw [decodeChunks_of_flatten_nil h]
    exact .nil
  | cons c text ih =>
    rw [encode_cons] at h
    obtain ⟨front, u, v, back, rfl, henc, hu, hback⟩ := split_chunks h String.utf8EncodeChar_ne_nil
    obtain ⟨ms, hms, hgarbled, hcut⟩ := ih (v :: back) hback.symm
    refine ⟨(c, decide (front.flatten ≠ [])) :: ms, by simp [hms], garbled_head henc hu hgarbled, ?_⟩
    intro pre c' b post hsplit
    cases pre with
    | nil =>
      obtain ⟨hcb, rfl⟩ := List.cons_eq_cons.1 hsplit
      obtain ⟨rfl, rfl⟩ := Prod.mk.inj hcb
      rw [decide_eq_true_iff]
      exact (cutInside_head henc hu).symm
    | cons p pre =>
      obtain ⟨rfl, rfl⟩ := List.cons_eq_cons.1 hsplit
      rw [hcut pre c' b post rfl]
      exact (cutInside_behind henc hu _ c').symm

end Utf8
