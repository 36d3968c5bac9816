import OhMyClaw.Lib.Base64
import OhMyClaw.Lib.Utf8

/-!
# The decoder of inline files

The files of a request come in base64.  The decoder works on the bytes of the text: it drops ASCII
whitespace and the padding character wherever they stand, and decodes the rest in groups of four.

    decodeChunk_eq      what a group gives
    base64_decoded      what is read back, what is refused, and how long the rest is
-/

namespace OhMyClaw

namespace Base64Decode

/-! ## The source -/

/-- `u8::is_ascii_whitespace`. -/
def isAsciiWhitespace (b : UInt8) : Bool := b = 32 || b = 9 || b = 10 || b = 12 || b = 13

def val (c : UInt8) : Option UInt32 :=
  if 65 ≤ c ∧ c ≤ 90 then some (c - 65).toUInt32
  else if 97 ≤ c ∧ c ≤ 122 then some ((c - 97).toUInt32 + 26)
  else if 48 ≤ c ∧ c ≤ 57 then some ((c - 48).toUInt32 + 52)
  else if c = 43 then some 62
  else if c = 47 then some 63
  else none

/-- `slice::chunks`, with four in a chunk. -/
def chunks {α : Type} : List α → List (List α)
  | a :: b :: c :: d :: s => [a, b, c, d] :: chunks s
  | [] => []
  | s => [s]

/-- One turn of the loop.  A group of one character cannot encode any byte. -/
def decodeChunk (chunk : List UInt8) : Option (List UInt8) :=
  if chunk.length < 2 then none
  else do
    let acc ← chunk.foldlM (fun (acc : UInt32) c => (val c).map fun v => acc <<< 6 ||| v) 0
    -- aligned to the left, so that the high bytes stand where they do in a whole group
    let acc := acc <<< (6 * (4 - chunk.length)).toUInt32
    some ([(acc >>> 16).toUInt8, (acc >>> 8).toUInt8, acc.toUInt8].take (chunk.length - 1))

def decodeBytes (cleaned : List UInt8) : Option (List UInt8) := ((chunks cleaned).mapM decodeChunk).map List.flatten

def base64Decode (s : List Char) : Option (List UInt8) :=
  decodeBytes ((Utf8.encode s).filter fun b => !isAsciiWhitespace b && b ≠ 61)

/-! ## One group -/

theorem val_lt {c : UInt8} {v : UInt32} (h : val c = some v) : v.toNat < 64 := by
  have hall : ∀ n < 256, ((val (UInt8.ofNat n)).all fun v => v.toNat < 64) = true := by decide +kernel
  have hc := hall c.toNat c.toNat_lt
  rw [UInt8.ofNat_toNat, h] at hc
  simpa using hc

/-- The bits of a letter are taken in behind the others. -/
theorem toNat_shift_or {acc v : UInt32} (hacc : acc.toNat < 2 ^ 26) (hv : v.toNat < 64) :
    (acc <<< 6 ||| v).toNat = acc.toNat * 64 + v.toNat := by
  have hshift : (acc <<< 6).toNat = acc.toNat <<< 6 := by
    rw [UInt32.toNat_shiftLeft]
    apply Nat.mod_eq_of_lt
    rw [Nat.shiftLeft_eq]
    simp
    omega
  rw [UInt32.toNat_or, hshift, ← Nat.shiftLeft_add_eq_or_of_lt hv, Nat.shiftLeft_eq]

/-- The number the letters of a group stand for. -/
def number (vs : List UInt32) (n : Nat) : Nat := vs.foldl (fun n v => n * 64 + v.toNat) n

theorem foldlM_val {chunk : List UInt8} {vs : List UInt32} (h : List.Forall₂ (fun c v => val c = some v) chunk vs)
    {acc : UInt32} (hacc : (acc.toNat + 1) * 64 ^ chunk.length ≤ 2 ^ 32) :
    ∃ acc', chunk.foldlM (fun (acc : UInt32) c => (val c).map fun v => acc <<< 6 ||| v) acc = some acc' ∧
      acc'.toNat = number vs acc.toNat := by
  induction h generalizing acc with
  | nil => exact ⟨acc, rfl, rfl⟩
  | @cons c v chunk vs hv _ ih =>
    rw [List.length_cons, Nat.pow_succ, ← Nat.mul_assoc] at hacc
    have hpos : 1 ≤ 64 ^ chunk.length := Nat.one_le_pow _ _ (by omega)
    have hsmall : acc.toNat < 2 ^ 26 := by
      have := Nat.le_mul_of_pos_right ((acc.toNat + 1) * 64) hpos
      rw [Nat.mul_right_comm] at this
      omega
    have hnext : (acc <<< 6 ||| v).toNat = acc.toNat * 64 + v.toNat := toNat_shift_or hsmall (val_lt hv)
    have hle : ((acc <<< 6 ||| v).toNat + 1) * 64 ^ chunk.length ≤ 2 ^ 32 := by
      have hmul : acc.toNat * 64 + v.toNat + 1 ≤ (acc.toNat + 1) * 64 := by
        have := val_lt hv
        omega
      rw [hnext]
      calc (acc.toNat * 64 + v.toNat + 1) * 64 ^ chunk.length
          ≤ (acc.toNat + 1) * 64 * 64 ^ chunk.length := Nat.mul_le_mul_right _ hmul
        _ = (acc.toNat + 1) * 64 ^ chunk.length * 64 := Nat.mul_right_comm _ _ _
        _ ≤ 2 ^ 32 := hacc
    obtain ⟨acc', hfold, hacc'⟩ := ih hle
    refine ⟨acc', ?_, by rw [hacc', hnext]; rfl⟩
    rw [List.foldlM_cons, hv]
    exact hfold

theorem number_lt {chunk : List UInt8} {vs : List UInt32} (h : List.Forall₂ (fun c v => val c = some v) chunk vs)
    (n : Nat) : number vs n < (n + 1) * 64 ^ chunk.length := by
  induction h generalizing n with
  | nil => simp [number]
  | @cons c v chunk vs hv _ ih =>
    have hstep : n * 64 + v.toNat + 1 ≤ (n + 1) * 64 := by
      have := val_lt hv
      omega
    calc number (v :: vs) n = number vs (n * 64 + v.toNat) := rfl
      _ < (n * 64 + v.toNat + 1) * 64 ^ chunk.length := ih _
      _ ≤ (n + 1) * 64 * 64 ^ chunk.length := Nat.mul_le_mul_right _ hstep
      _ = (n + 1) * 64 ^ (c :: chunk).length := by rw [List.length_cons, Nat.pow_succ, Nat.mul_assoc, Nat.mul_comm 64]

theorem toNat_shiftLeft {acc : UInt32} {k : Nat} (hk : k < 32) (hacc : acc.toNat * 2 ^ k < 2 ^ 32) :
    (acc <<< k.toUInt32).toNat = acc.toNat * 2 ^ k := by
  have hmod : k.toUInt32.toNat % 32 = k := by
    simp [Nat.toUInt32]
    omega
  rw [UInt32.toNat_shiftLeft, hmod, Nat.shiftLeft_eq, Nat.mod_eq_of_lt hacc]

/-- The three bytes of a number. -/
def bytesOf (n : Nat) : List UInt8 := [UInt8.ofNat (n / 65536), UInt8.ofNat (n / 256), UInt8.ofNat n]

theorem bytesOf_toNat (acc : UInt32) : [(acc >>> 16).toUInt8, (acc >>> 8).toUInt8, acc.toUInt8] = bytesOf acc.toNat := by
  have hbyte (k : Nat) (n : UInt32) (hn : n.toNat = acc.toNat >>> k) : n.toUInt8 = UInt8.ofNat (acc.toNat / 2 ^ k) := by
    apply UInt8.toNat_inj.1
    rw [UInt32.toNat_toUInt8, UInt8.toNat_ofNat', hn, Nat.shiftRight_eq_div_pow]
  unfold bytesOf
  rw [hbyte 16 (acc >>> 16) (by simp), hbyte 8 (acc >>> 8) (by simp), hbyte 0 acc (by simp)]
  simp

/-- A group of letters is the bytes of its number, as many as it has whole. -/
theorem decodeChunk_eq {chunk : List UInt8} {vs : List UInt32}
    (h : List.Forall₂ (fun c v => val c = some v) chunk vs) (htwo : 2 ≤ chunk.length) (hfour : chunk.length ≤ 4) :
    decodeChunk chunk =
      some ((bytesOf (number vs 0 * 2 ^ (6 * (4 - chunk.length)))).take (chunk.length - 1)) := by
  have hpow : 64 ^ chunk.length * 2 ^ (6 * (4 - chunk.length)) = 2 ^ 24 := by
    rw [show 64 = 2 ^ 6 from rfl, ← Nat.pow_mul, ← Nat.pow_add]
    congr 1
    omega
  have hsmall : number vs 0 * 2 ^ (6 * (4 - chunk.length)) < 2 ^ 32 := by
    have hnumber := number_lt h 0
    calc number vs 0 * 2 ^ (6 * (4 - chunk.length))
        ≤ 64 ^ chunk.length * 2 ^ (6 * (4 - chunk.length)) := Nat.mul_le_mul_right _ (by omega)
      _ < 2 ^ 32 := by omega
  have hfit : ((0 : UInt32).toNat + 1) * 64 ^ chunk.length ≤ 2 ^ 32 := by
    calc ((0 : UInt32).toNat + 1) * 64 ^ chunk.length = 64 ^ chunk.length := by simp
      _ ≤ 64 ^ 4 := Nat.pow_le_pow_right (by omega) hfour
      _ ≤ 2 ^ 32 := by omega
  obtain ⟨acc, hfold, hacc⟩ := foldlM_val h hfit
  have hacc : acc.toNat = number vs 0 := hacc
  have haligned : (acc <<< (6 * (4 - chunk.length)).toUInt32).toNat = number vs 0 * 2 ^ (6 * (4 - chunk.length)) := by
    rw [toNat_shiftLeft (by omega) (by rwa [hacc]), hacc]
  unfold decodeChunk
  rw [if_neg (by omega), hfold, Option.bind_eq_bind, Option.bind_some, ← haligned, ← bytesOf_toNat]

/-! ## All groups -/

theorem decodeBytes_cons (a b c d : UInt8) (s : List UInt8) :
    decodeBytes (a :: b :: c :: d :: s) = (decodeChunk [a, b, c, d]).bind fun x => (decodeBytes s).map (x ++ ·) := by
  unfold decodeBytes
  rw [chunks, List.mapM_cons]
  cases decodeChunk [a, b, c, d] with
  | none => rfl
  | some x => cases (chunks s).mapM decodeChunk <;> rfl

theorem decodeBytes_rest {s : List UInt8} (hne : s ≠ []) (hs : s.length < 4) : decodeBytes s = decodeChunk s := by
  have hchunks : chunks s = [s] := by
    induction s using chunks.induct with
    | case1 a b c d s _ =>
      simp only [List.length_cons] at hs
      omega
    | case2 => exact absurd rfl hne
    | case3 s hfour hnil => rw [chunks.eq_3 s hfour hnil]
  unfold decodeBytes
  rw [hchunks, List.mapM_cons]
  cases decodeChunk s with
  | none => rfl
  | some x => simp

theorem exists_vals {chunk : List UInt8} (h : ∀ c ∈ chunk, val c ≠ none) :
    ∃ vs, List.Forall₂ (fun c v => val c = some v) chunk vs := by
  induction chunk with
  | nil => exact ⟨[], .nil⟩
  | cons c chunk ih =>
    rw [List.forall_mem_cons] at h
    obtain ⟨v, hv⟩ := Option.ne_none_iff_exists'.1 h.1
    obtain ⟨vs, hvs⟩ := ih h.2
    exact ⟨v :: vs, .cons hv hvs⟩

theorem foldlM_none {chunk : List UInt8} (h : ∃ c ∈ chunk, val c = none) (acc : UInt32) :
    chunk.foldlM (fun (acc : UInt32) c => (val c).map fun v => acc <<< 6 ||| v) acc = none := by
  induction chunk generalizing acc with
  | nil => simp at h
  | cons c chunk ih =>
    rw [List.foldlM_cons]
    cases hv : val c with
    | none => rfl
    | some v =>
      obtain ⟨d, hd, hnone⟩ := h
      rcases List.mem_cons.1 hd with rfl | hd
      · rw [hv] at hnone
        cases hnone
      · exact ih ⟨d, hd, hnone⟩ _

/-- A group is refused when it is a single character, or holds one that is no letter. -/
theorem decodeChunk_cases (chunk : List UInt8) (hfour : chunk.length ≤ 4) :
    ((∃ c ∈ chunk, val c = none) ∨ chunk.length < 2) ∧ decodeChunk chunk = none ∨
      ((∀ c ∈ chunk, val c ≠ none) ∧ 2 ≤ chunk.length) ∧
        ∃ bytes, decodeChunk chunk = some bytes ∧ bytes.length = chunk.length - 1 := by
  by_cases htwo : chunk.length < 2
  · left
    refine ⟨Or.inr htwo, ?_⟩
    unfold decodeChunk
    rw [if_pos htwo]
  · by_cases hval : ∃ c ∈ chunk, val c = none
    · left
      refine ⟨Or.inl hval, ?_⟩
      unfold decodeChunk
      rw [if_neg htwo, foldlM_none hval]
      rfl
    · right
      have hval : ∀ c ∈ chunk, val c ≠ none := fun c hc hnone => hval ⟨c, hc, hnone⟩
      obtain ⟨vs, hvs⟩ := exists_vals hval
      refine ⟨⟨hval, by omega⟩, _, decodeChunk_eq hvs (by omega) hfour, ?_⟩
      rw [List.length_take]
      simp only [bytesOf, List.length_cons, List.length_nil]
      omega

/-- The same of the whole: only the last group can be a single character. -/
theorem decodeBytes_cases (s : List UInt8) :
    ((∃ c ∈ s, val c = none) ∨ s.length % 4 = 1) ∧ decodeBytes s = none ∨
      ((∀ c ∈ s, val c ≠ none) ∧ s.length % 4 ≠ 1) ∧
        ∃ bytes, decodeBytes s = some bytes ∧ bytes.length = 3 * s.length / 4 := by
  induction s using chunks.induct with
  | case1 a b c d s ih =>
    rw [decodeBytes_cons]
    have hmod : (a :: b :: c :: d :: s).length % 4 = s.length % 4 := by
      simp only [List.length_cons]
      omega
    rw [hmod]
    have hmem (P : UInt8 → Prop) : (∃ x ∈ a :: b :: c :: d :: s, P x) ↔ (∃ x ∈ [a, b, c, d], P x) ∨ ∃ x ∈ s, P x := by
      rw [show a :: b :: c :: d :: s = [a, b, c, d] ++ s from rfl]
      simp only [List.mem_append, or_and_right, exists_or]
    rcases decodeChunk_cases [a, b, c, d] (by simp) with ⟨hbad, hnone⟩ | ⟨⟨hgood, -⟩, x, hx, hlen⟩
    · left
      rw [hnone, hmem]
      refine ⟨Or.inl (Or.inl ?_), rfl⟩
      rcases hbad with hbad | hshort
      · exact hbad
      · simp at hshort
    · rw [hx, Option.bind_some]
      rcases ih with ⟨hbad, hnone⟩ | ⟨⟨hrest, hlast⟩, bytes, hbytes, hlength⟩
      · left
        rw [hnone, hmem]
        exact ⟨hbad.imp_left Or.inr, rfl⟩
      · right
        refine ⟨⟨?_, hlast⟩, x ++ bytes, by rw [hbytes]; rfl, ?_⟩
        · intro y hy
          rw [show a :: b :: c :: d :: s = [a, b, c, d] ++ s from rfl, List.mem_append] at hy
          exact hy.elim (hgood y) (hrest y)
        · rw [List.length_append, hlen, hlength]
          simp only [List.length_cons, List.length_nil]
          omega
  | case2 =>
    right
    exact ⟨⟨by simp, by simp⟩, [], rfl, rfl⟩
  | case3 s hfour hnil =>
    have hshort : s.length < 4 := by
      by_contra hlong
      obtain ⟨a, b, c, d, htake⟩ := List.length_eq_four.1 (List.length_take_of_le (by omega : 4 ≤ s.length))
      apply hfour a b c d (s.drop 4)
      calc s = s.take 4 ++ s.drop 4 := (List.take_append_drop 4 s).symm
        _ = a :: b :: c :: d :: s.drop 4 := by rw [htake]; rfl
    have hpos : 0 < s.length := List.length_pos_iff.2 hnil
    rw [decodeBytes_rest hnil hshort]
    rcases decodeChunk_cases s (by omega) with ⟨hbad, hnone⟩ | ⟨⟨hgood, htwo⟩, x, hx, hlen⟩
    · left
      exact ⟨hbad.imp_right fun h => by omega, hnone⟩
    · right
      exact ⟨⟨hgood, by omega⟩, x, hx, by omega⟩

/-! ## Encodings are read back -/

def byte (c : Char) : UInt8 := UInt8.ofNat c.toNat

theorem val_letter {v : Nat} (hv : v < 64) : val (byte (Base64.letter v)) = some (UInt32.ofNat v) := by
  have hall : ∀ v < 64, val (byte (Base64.letter v)) = some (UInt32.ofNat v) := by decide +kernel
  exact hall v hv

theorem bytesOf_eq (a b c : UInt8) : bytesOf (a.toNat * 65536 + b.toNat * 256 + c.toNat) = [a, b, c] := by
  have hbyte (n : Nat) (x : UInt8) (hn : n % 256 = x.toNat) : UInt8.ofNat n = x := by
    apply UInt8.toNat_inj.1
    rw [UInt8.toNat_ofNat', hn]
  have ha := a.toNat_lt
  have hb := b.toNat_lt
  have hc := c.toNat_lt
  unfold bytesOf
  rw [hbyte _ a (by omega), hbyte _ b (by omega), hbyte _ c (by omega)]

/-- A group of letters is the bytes of the number their values are the digits of. -/
theorem decodeChunk_letters (vs : List Nat) (a b c : UInt8) (hvs : ∀ v ∈ vs, v < 64) (htwo : 2 ≤ vs.length)
    (hfour : vs.length ≤ 4) (hnumber : vs.foldl (fun n v => n * 64 + v) 0 * 2 ^ (6 * (4 - vs.length)) =
      a.toNat * 65536 + b.toNat * 256 + c.toNat) :
    decodeChunk ((vs.map Base64.letter).map byte) = some ([a, b, c].take (vs.length - 1)) := by
  have hreads : List.Forall₂ (fun c v => val c = some v) ((vs.map Base64.letter).map byte) (vs.map UInt32.ofNat) := by
    clear htwo hfour hnumber
    induction vs with
    | nil => exact .nil
    | cons v vs ih =>
      rw [List.forall_mem_cons] at hvs
      exact .cons (val_letter hvs.1) (ih hvs.2)
  have hdigits (n : Nat) : number (vs.map UInt32.ofNat) n = vs.foldl (fun n v => n * 64 + v) n := by
    unfold number
    rw [List.foldl_map]
    apply List.foldl_ext
    intro n v hv
    have hsmall := hvs v hv
    rw [UInt32.toNat_ofNat_of_lt' (by unfold UInt32.size; omega)]
  have hlen : ((vs.map Base64.letter).map byte).length = vs.length := by simp
  rw [decodeChunk_eq hreads (by omega) (by omega), hlen, hdigits, hnumber, bytesOf_eq]

theorem decodeBytes_encode (bs : List UInt8) : decodeBytes ((Base64.encode bs).map byte) = some bs := by
  induction bs using Base64.encode.induct with
  | case1 => rfl
  | case2 a =>
    have ha := a.toNat_lt
    have hchunk : decodeChunk ((Base64.encode [a]).map byte) = some [a] :=
      decodeChunk_letters [a.toNat / 4, a.toNat % 4 * 16] a 0 0 (by simp; omega) (by simp) (by simp)
        (by simp; omega)
    rw [decodeBytes_rest (by simp [Base64.encode]) (by simp [Base64.encode]), hchunk]
  | case3 a b =>
    have ha := a.toNat_lt
    have hb := b.toNat_lt
    have hchunk : decodeChunk ((Base64.encode [a, b]).map byte) = some [a, b] :=
      decodeChunk_letters [a.toNat / 4, a.toNat % 4 * 16 + b.toNat / 16, b.toNat % 16 * 4] a b 0
        (by simp; omega) (by simp) (by simp) (by simp; omega)
    rw [decodeBytes_rest (by simp [Base64.encode]) (by simp [Base64.encode]), hchunk]
  | case4 a b c bs ih =>
    have ha := a.toNat_lt
    have hb := b.toNat_lt
    have hc := c.toNat_lt
    have hchunk := decodeChunk_letters
      [a.toNat / 4, a.toNat % 4 * 16 + b.toNat / 16, b.toNat % 16 * 4 + c.toNat / 64, c.toNat % 64] a b c (by simp; omega) (by simp) (by simp) (by simp; omega)
    rw [Base64.encode]
    simp only [List.map_cons]
    rw [decodeBytes_cons, ih]
    simp only [List.map_cons, List.map_nil] at hchunk
    rw [hchunk]
    rfl

/-! ## Texts -/

/-- ASCII whitespace. -/
def isSpace (c : Char) : Bool := c = ' ' || c = '\t' || c = '\n' || c = '\x0c' || c = '\r'

/-- Neither whitespace nor padding. -/
def isKept (c : Char) : Bool := !isSpace c && c ≠ '='

/-- The bytes that are dropped are those of the characters that are. -/
theorem cleaned_eq (t : List Char) :
    (Utf8.encode t).filter (fun b => !isAsciiWhitespace b && b ≠ 61) = Utf8.encode (t.filter isKept) := by
  induction t with
  | nil => rfl
  | cons c t ih =>
    rw [Utf8.encode_cons, List.filter_append, ih, List.filter_cons]
    cases hc : isKept c with
    | false =>
      have hdropped : (String.utf8EncodeChar c).filter (fun b => !isAsciiWhitespace b && b ≠ 61) = [] := by
        have hc : c = ' ' ∨ c = '\t' ∨ c = '\n' ∨ c = '\x0c' ∨ c = '\r' ∨ c = '=' := by
          by_contra hne
          simp only [not_or] at hne
          simp [isKept, isSpace, hne] at hc
        rcases hc with rfl | rfl | rfl | rfl | rfl | rfl <;> decide
      rw [hdropped]
      rfl
    | true =>
      have hkept : ∀ b ∈ String.utf8EncodeChar c, (!isAsciiWhitespace b && decide (b ≠ 61)) = true := by
        intro b hb
        by_contra hdrop
        have hdrop : b = 32 ∨ b = 9 ∨ b = 10 ∨ b = 12 ∨ b = 13 ∨ b = 61 := by
          by_contra hne
          simp only [not_or] at hne
          simp [isAsciiWhitespace, hne] at hdrop
        have hsmall : b.toNat < 0x80 := by
          rcases hdrop with rfl | rfl | rfl | rfl | rfl | rfl <;> decide
        rw [Utf8.eq_of_mem_ascii hb hsmall] at hc
        rcases hdrop with rfl | rfl | rfl | rfl | rfl | rfl <;> exact absurd hc (by decide)
      rw [List.filter_eq_self.2 hkept, if_pos rfl, Utf8.encode_cons]

theorem utf8_letter {c : Char} (h : c ∈ Base64.alphabet) :
    String.utf8EncodeChar c = [byte c] ∧ val (byte c) ≠ none ∧ isKept c = true := by
  have hall : Base64.alphabet.all (fun c =>
      String.utf8EncodeChar c = [byte c] && (val (byte c)).isSome && isKept c) = true := by
    decide +kernel
  have hc := List.all_eq_true.1 hall c h
  simp only [Bool.and_eq_true, decide_eq_true_eq] at hc
  exact ⟨hc.1.1, Option.isSome_iff_ne_none.1 hc.1.2, hc.2⟩

/-- A byte that is a letter's comes of that letter. -/
theorem letter_of_val {c : Char} {b : UInt8} (hb : b ∈ String.utf8EncodeChar c) (hval : val b ≠ none) :
    c ∈ Base64.alphabet := by
  have hall : ∀ n < 256, (val (UInt8.ofNat n)).isSome = true → n < 0x80 ∧ Base64.alphabet.contains (Char.ofNat n) = true := by
    decide +kernel
  have hn := hall b.toNat b.toNat_lt
  rw [UInt8.ofNat_toNat] at hn
  obtain ⟨hsmall, hletter⟩ := hn (Option.isSome_iff_ne_none.2 hval)
  rw [Utf8.eq_of_mem_ascii hb hsmall]
  exact List.contains_iff_mem.1 hletter

theorem encode_letters {t : List Char} (h : ∀ c ∈ t, c ∈ Base64.alphabet) : Utf8.encode t = t.map byte := by
  induction t with
  | nil => rfl
  | cons c t ih =>
    rw [List.forall_mem_cons] at h
    rw [Utf8.encode_cons, ih h.2, (utf8_letter h.1).1]
    rfl

theorem filter_isKept (t : List Char) : t.filter isKept = (t.filter fun c => !isSpace c).filter (· ≠ '=') := by
  rw [List.filter_filter]
  apply List.filter_congr
  intro c _
  rw [isKept, Bool.and_comm]

/-- The padding of an encoding is dropped, and nothing else. -/
theorem filter_encodePadded (bs : List UInt8) :
    (Base64.encode bs).filter (· ≠ '=') = Base64.encode bs ∧
      (Base64.encodePadded bs).filter (· ≠ '=') = Base64.encode bs := by
  have hletters : (Base64.encode bs).filter (· ≠ '=') = Base64.encode bs := by
    rw [List.filter_eq_self]
    intro c hc
    have hkept := (utf8_letter (Base64.encode_letters bs c hc)).2.2
    simp only [isKept, Bool.and_eq_true] at hkept
    exact hkept.2
  have hpadding : (Base64.padding bs).filter (· ≠ '=') = [] := by simp [Base64.padding]
  refine ⟨hletters, ?_⟩
  rw [Base64.encodePadded, List.filter_append, hletters, hpadding, List.append_nil]

/-- Letters are refused only if they end in a group of one. -/
theorem decodeBytes_letters {s : List Char} (h : ∀ c ∈ s, c ∈ Base64.alphabet) :
    s.length % 4 = 1 ∧ decodeBytes (Utf8.encode s) = none ∨
      s.length % 4 ≠ 1 ∧ ∃ bytes, decodeBytes (Utf8.encode s) = some bytes ∧ bytes.length = 3 * s.length / 4 := by
  have hval : ¬ ∃ b ∈ s.map byte, val b = none := by
    rintro ⟨b, hb, hnone⟩
    obtain ⟨c, hc, rfl⟩ := List.mem_map.1 hb
    exact (utf8_letter (h c hc)).2.1 hnone
  rw [encode_letters h]
  have hcases := decodeBytes_cases (s.map byte)
  rw [List.length_map] at hcases
  rcases hcases with ⟨hbad, hnone⟩ | ⟨⟨-, hlast⟩, hsome⟩
  · exact .inl ⟨hbad.resolve_left hval, hnone⟩
  · exact .inr ⟨hlast, hsome⟩

/-- A character that is no letter is refused. -/
theorem decodeBytes_foreign {s : List Char} {c : Char} (hc : c ∈ s) (hnot : c ∉ Base64.alphabet) :
    decodeBytes (Utf8.encode s) = none := by
  obtain ⟨b, hb⟩ := List.exists_mem_of_ne_nil _ (String.utf8EncodeChar_ne_nil (c := c))
  have hval : val b = none := by
    by_contra hval
    exact hnot (letter_of_val hb hval)
  rcases decodeBytes_cases (Utf8.encode s) with ⟨-, hnone⟩ | ⟨⟨hgood, -⟩, -⟩
  · exact hnone
  · exact absurd hval (hgood b (List.mem_flatMap.2 ⟨c, hc, hb⟩))

/-- Every byte string is read back from its encoding, padded or not, with ASCII whitespace anywhere.  Any text
is refused exactly if, without whitespace and padding, it holds a character that is no letter or ends in a
group of one; otherwise `n` letters are `3 * n / 4` bytes. -/
theorem base64_decoded :
    (∀ (bs : List UInt8) (t : List Char), t.filter (fun c => !isSpace c) = Base64.encode bs ∨
        t.filter (fun c => !isSpace c) = Base64.encodePadded bs → base64Decode t = some bs) ∧
      ∀ t : List Char,
        (base64Decode t = none ↔ (∃ c ∈ t.filter isKept, c ∉ Base64.alphabet) ∨ (t.filter isKept).length % 4 = 1) ∧
          ∀ bytes, base64Decode t = some bytes → bytes.length = 3 * (t.filter isKept).length / 4 := by
  constructor
  · intro bs t ht
    have hrest : t.filter isKept = Base64.encode bs := by
      rw [filter_isKept]
      rcases ht with ht | ht
      · rw [ht, (filter_encodePadded bs).1]
      · rw [ht, (filter_encodePadded bs).2]
    rw [base64Decode, cleaned_eq, hrest, encode_letters (Base64.encode_letters bs), decodeBytes_encode]
  · intro t
    rw [base64Decode, cleaned_eq]
    by_cases hall : ∀ c ∈ t.filter isKept, c ∈ Base64.alphabet
    · have hforeign : ¬ ∃ c ∈ t.filter isKept, c ∉ Base64.alphabet := fun ⟨c, hc, hnot⟩ => hnot (hall c hc)
      rcases decodeBytes_letters hall with ⟨hlast, hnone⟩ | ⟨hlast, bytes, hsome, hlen⟩
      · rw [hnone]
        exact ⟨⟨fun _ => .inr hlast, fun _ => rfl⟩, by simp⟩
      · rw [hsome]
        refine ⟨⟨by simp, fun h => absurd (h.resolve_left hforeign) hlast⟩, ?_⟩
        intro _ hbytes
        rw [← Option.some.inj hbytes]
        exact hlen
    · simp only [not_forall] at hall
      obtain ⟨c, hc, hnot⟩ := hall
      rw [decodeBytes_foreign hc hnot]
      exact ⟨⟨fun _ => .inl ⟨c, hc, hnot⟩, fun _ => rfl⟩, by simp⟩

end Base64Decode

end OhMyClaw
