import OhMyClaw.Lib.Escape
import OhMyClaw.Tools.Html

/-!
# Escaped text read back

`html_to_text` decodes the entities by one replacement after the other, the ampersand first.  A text
that has been escaped comes back with the other entities decoded once more (`decode_escape`): what
looked like one of them in the text does not survive.

    survives_iff   which texts come back, up to their blanks
-/

namespace OhMyClaw.Html

open Bytes CutOut CommandLine

/-! ## Escaping -/

def escapeChar (c : Char) : List Char :=
  if c = '&' then ['&', 'a', 'm', 'p', ';']
  else if c = '<' then ['&', 'l', 't', ';']
  else if c = '>' then ['&', 'g', 't', ';']
  else if c = '"' then ['&', 'q', 'u', 'o', 't', ';']
  else [c]

/-- A plain text as HTML text. -/
def escape (t : List Char) : List Char := t.flatMap escapeChar

/-- The characters of `done` stand for themselves already. -/
def escapeRest (done : List Char) (c : Char) : List Char := if c ∈ done then [c] else escapeChar c

theorem escapeRest_nil : escapeRest [] = escapeChar := by
  funext c
  simp [escapeRest]

theorem update_escapeRest (done : List Char) (x : Char) :
    Function.update (escapeRest done) x [x] = escapeRest (x :: done) := by
  funext c
  by_cases hc : c = x
  · subst hc
    simp [escapeRest]
  · simp [escapeRest, hc]

theorem escapeRest_all (t : List Char) : t.flatMap (escapeRest ['"', '>', '<', '&']) = t := by
  have hself : ∀ c, escapeRest ['"', '>', '<', '&'] c = [c] := by
    intro c
    unfold escapeRest
    split
    · rfl
    · next hc =>
      simp only [List.mem_cons, List.not_mem_nil, or_false, not_or] at hc
      unfold escapeChar
      rw [if_neg hc.2.2.2, if_neg hc.2.2.1, if_neg hc.2.1, if_neg hc.1]
  exact (List.flatMap_congr fun c _ => hself c).trans (by simp)

/-- The four entities are codes, whichever of them are still to be decoded. -/
theorem code_escapeRest (done : List Char) {x : Char} (hx : x ∉ done)
    (hspecial : x = '&' ∨ x = '<' ∨ x = '>' ∨ x = '"') :
    Escape.Code '&' (escapeRest done) x (escapeChar x) := by
  have hself : escapeRest done x = escapeChar x := if_neg hx
  refine ⟨hself, ?_, ?_⟩
  · rcases hspecial with rfl | rfl | rfl | rfl
    · exact ⟨_, rfl, by decide⟩
    · exact ⟨_, rfl, by decide⟩
    · exact ⟨_, rfl, by decide⟩
    · exact ⟨_, rfl, by decide⟩
  · intro c hc
    unfold escapeRest
    split
    · exact Or.inl rfl
    · by_cases hcode : c = '&' ∨ c = '<' ∨ c = '>' ∨ c = '"'
      · refine Or.inr ?_
        rcases hcode with rfl | rfl | rfl | rfl
        · refine ⟨_, rfl, by decide, ?_⟩
          rcases hspecial with rfl | rfl | rfl | rfl <;> simp [escapeChar] at hc ⊢
        · refine ⟨_, rfl, by decide, ?_⟩
          rcases hspecial with rfl | rfl | rfl | rfl <;> simp [escapeChar] at hc ⊢
        · refine ⟨_, rfl, by decide, ?_⟩
          rcases hspecial with rfl | rfl | rfl | rfl <;> simp [escapeChar] at hc ⊢
        · refine ⟨_, rfl, by decide, ?_⟩
          rcases hspecial with rfl | rfl | rfl | rfl <;> simp [escapeChar] at hc ⊢
      · simp only [not_or] at hcode
        left
        unfold escapeChar
        rw [if_neg hcode.1, if_neg hcode.2.1, if_neg hcode.2.2.1, if_neg hcode.2.2.2]

theorem plain_of_all {done p : List Char} (h : (p.all fun c => escapeRest done c = [c]) = true) :
    ∀ c ∈ p, escapeRest done c = [c] := by
  intro c hc
  simpa using List.all_eq_true.1 h c hc

/-- The replacements of the entities but the first. -/
def decodeRest (s : List Char) : List Char :=
  entities.tail.foldl (fun s e => Find.replace e.1.toList e.2.toList s) s

/-- An escaped text comes back with the entities behind the first decoded in it. -/
theorem decode_escape (t : List Char) : decodeEntities (escape t) = decodeRest t := by
  have hamp : Find.replace (escapeChar '&') ['&'] (escape t) = t.flatMap (escapeRest ['&']) := by
    have h := Escape.replace_lead (code_escapeRest [] (x := '&') (by simp) (Or.inl rfl)) t
    rwa [update_escapeRest, escapeRest_nil] at h
  have hlt (t : List Char) : Find.replace (escapeChar '<') ['<'] (t.flatMap (escapeRest ['&'])) =
      (Find.replace (escapeChar '<') ['<'] t).flatMap (escapeRest ['<', '&']) := by
    have h := Escape.replace_code (code_escapeRest ['&'] (x := '<') (by decide) (Or.inr (Or.inl rfl)))
      (plain_of_all (by decide)) (by decide) t
    rwa [update_escapeRest] at h
  have hgt (t : List Char) : Find.replace (escapeChar '>') ['>'] (t.flatMap (escapeRest ['<', '&'])) =
      (Find.replace (escapeChar '>') ['>'] t).flatMap (escapeRest ['>', '<', '&']) := by
    have h := Escape.replace_code (code_escapeRest ['<', '&'] (x := '>') (by decide)
      (Or.inr (Or.inr (Or.inl rfl)))) (plain_of_all (by decide)) (by decide) t
    rwa [update_escapeRest] at h
  have hquot (t : List Char) : Find.replace (escapeChar '"') ['"'] (t.flatMap (escapeRest ['>', '<', '&'])) =
      Find.replace (escapeChar '"') ['"'] t := by
    have h := Escape.replace_code (code_escapeRest ['>', '<', '&'] (x := '"') (by decide)
      (Or.inr (Or.inr (Or.inr rfl)))) (plain_of_all (by decide)) (by decide) t
    rwa [update_escapeRest, escapeRest_all] at h
  have hcodes : "&amp;".toList = escapeChar '&' ∧ "&lt;".toList = escapeChar '<' ∧
      "&gt;".toList = escapeChar '>' ∧ "&quot;".toList = escapeChar '"' := by
    decide
  have hplain : "&".toList = ['&'] ∧ "<".toList = ['<'] ∧ ">".toList = ['>'] ∧ "\"".toList = ['"'] := by
    decide
  simp only [decodeEntities, decodeRest, entities, List.tail_cons, List.foldl_cons, List.foldl_nil, hcodes,
    hplain, hamp, hlt, hgt, hquot]

/-! ## What is not blank -/

/-- How many characters are not blank. -/
def weight (s : List Char) : Nat := s.countP fun c => !RustStr.isWhitespace c

theorem weight_append (a b : List Char) : weight (a ++ b) = weight a + weight b := List.countP_append

/-- A replacement by less leaves less, if there is anything to replace. -/
theorem weight_replaced {p q s r : List Char} (hlt : weight q < weight p) (h : Find.Replaced p q s r) :
    weight r ≤ weight s ∧ (p <:+: s → weight r < weight s) := by
  induction h with
  | last h => exact ⟨Nat.le_refl _, fun hp => absurd hp h⟩
  | occurrence _ _ ih =>
    simp only [weight_append]
    exact ⟨by omega, fun _ => by omega⟩

/-- Only a text without any of the entities keeps its weight. -/
theorem weight_foldl {es : List (String × String)}
    (hes : ∀ e ∈ es, e.1.toList ≠ [] ∧ weight e.2.toList < weight e.1.toList) (s : List Char) :
    weight (es.foldl (fun s e => Find.replace e.1.toList e.2.toList s) s) ≤ weight s ∧
      (weight (es.foldl (fun s e => Find.replace e.1.toList e.2.toList s) s) = weight s →
        ∀ e ∈ es, ¬ e.1.toList <:+: s) := by
  induction es generalizing s with
  | nil => simp
  | cons e es ih =>
    obtain ⟨hne, hlt⟩ := hes e List.mem_cons_self
    obtain ⟨hle, hstrict⟩ := weight_replaced hlt ((Find.replace_iff hne).1 rfl)
    obtain ⟨hle', hrest⟩ := ih (fun e' he' => hes e' (List.mem_cons_of_mem _ he'))
      (Find.replace e.1.toList e.2.toList s)
    rw [List.foldl_cons]
    refine ⟨Nat.le_trans hle' hle, fun heq => ?_⟩
    have hno : ¬ e.1.toList <:+: s := by
      intro hin
      have := hstrict hin
      omega
    have hsame : Find.replace e.1.toList e.2.toList s = s := Find.replace_of_absent hne _ hno
    rw [hsame] at hrest heq
    intro e' he'
    rcases List.mem_cons.1 he' with rfl | he'
    · exact hno
    · exact hrest heq e' he'

theorem foldl_of_absent {es : List (String × String)} (hes : ∀ e ∈ es, e.1.toList ≠ []) {s : List Char}
    (h : ∀ e ∈ es, ¬ e.1.toList <:+: s) :
    es.foldl (fun s e => Find.replace e.1.toList e.2.toList s) s = s := by
  induction es with
  | nil => rfl
  | cons e es ih =>
    rw [List.foldl_cons, Find.replace_of_absent (hes e List.mem_cons_self) _ (h e List.mem_cons_self)]
    exact ih (fun e' he' => hes e' (List.mem_cons_of_mem _ he')) fun e' he' => h e' (List.mem_cons_of_mem _ he')

theorem weight_dropWhile (s : List Char) : weight (s.dropWhile RustStr.isWhitespace) = weight s := by
  have hblank : weight (s.takeWhile RustStr.isWhitespace) = 0 := by
    refine List.countP_eq_zero.2 fun c hc => ?_
    simpa using List.mem_takeWhile_imp hc
  calc weight (s.dropWhile RustStr.isWhitespace)
      = weight (s.takeWhile RustStr.isWhitespace) + weight (s.dropWhile RustStr.isWhitespace) := by
        rw [hblank, Nat.zero_add]
    _ = weight s := by rw [← weight_append, List.takeWhile_append_dropWhile]

theorem weight_trim (s : List Char) : weight (RustStr.trim s) = weight s := by
  have hreverse (s : List Char) : weight s.reverse = weight s := List.countP_reverse
  have hend (s : List Char) : weight (RustStr.trimEnd s) = weight s := by
    show weight (s.reverse.dropWhile RustStr.isWhitespace).reverse = weight s
    rw [hreverse, weight_dropWhile, hreverse]
  rw [RustStr.trim, hend]
  exact weight_dropWhile s

theorem weight_split (s : List Char) :
    ((Lines.split (· = '\n') s).1.map weight).sum + weight (Lines.split (· = '\n') s).2 = weight s := by
  induction s with
  | nil => rfl
  | cons c s ih =>
    have hcons (l : List Char) : weight (c :: l) = weight [c] + weight l := weight_append [c] l
    rw [hcons s, ← ih]
    by_cases hc : c = '\n'
    · subst hc
      rw [Lines.split_cons_sep (by simp)]
      simp [weight, RustStr.isWhitespace]
    · rw [Lines.split, if_neg (by simpa using hc)]
      cases hlines : (Lines.split (· = '\n') s).1 with
      | nil =>
        simp only [List.map_nil, List.sum_nil, Nat.zero_add]
        exact hcons _
      | cons l ls =>
        simp only [List.map_cons, List.sum_cons, hcons l]
        omega

theorem weight_lines (s : List Char) : ((RustStr.lines s).map weight).sum = weight s := by
  have hline (l : List Char) : weight (if l.getLast? = some '\r' then l.dropLast else l) = weight l := by
    split
    · next h =>
      obtain ⟨front, rfl⟩ := List.getLast?_eq_some_iff.1 h
      rw [List.dropLast_concat, weight_append]
      rfl
    · rfl
  have hrest (r : List Char) : ((if r = [] then [] else [r]).map weight).sum = weight r := by
    split
    · next h =>
      rw [h]
      rfl
    · simp
  rw [← weight_split s]
  simp only [RustStr.lines, List.map_append, List.sum_append, List.map_map, hrest]
  congr 2
  exact List.map_congr_left fun l _ => hline l

theorem weight_collapseLines (prevBlank : Bool) (ls : List (List Char)) :
    weight (collapseLines prevBlank ls) = (ls.map weight).sum := by
  induction ls generalizing prevBlank with
  | nil => rfl
  | cons l ls ih =>
    have hfeed : weight ['\n'] = 0 := by decide
    rw [List.map_cons, List.sum_cons, ← weight_trim l, collapseLines]
    split
    · next h =>
      rw [weight_append, ih, h]
      cases prevBlank <;> rfl
    · rw [weight_append]
      exact congrArg (weight (RustStr.trim l) + ·) ((weight_append ['\n'] _).trans (by rw [hfeed, ih, Nat.zero_add]))

/-- Lines and blank lines are all that is lost. -/
theorem weight_collapse (s : List Char) : weight (collapse s) = weight s := by
  rw [collapse, weight_collapseLines, weight_lines]

/-- Decoding once more is seen behind the blanks exactly when there is an entity to decode. -/
theorem collapse_decodeRest (t : List Char) :
    collapse (decodeRest t) = collapse t ↔ ∀ e ∈ entities.tail, ¬ e.1.toList <:+: t := by
  have hes : ∀ e ∈ entities.tail, e.1.toList ≠ [] ∧ weight e.2.toList < weight e.1.toList := by decide
  constructor
  · intro h
    have hweight := congrArg weight h
    rw [weight_collapse, weight_collapse] at hweight
    exact (weight_foldl hes t).2 hweight
  · intro h
    rw [decodeRest, foldl_of_absent (fun e he => (hes e he).1) h]

/-! ## Tags and blocks of an escaped text -/

theorem stripTags_self {s : List Char} (hlt : '<' ∉ s) (hgt : '>' ∉ s) : stripTags false s = s := by
  induction s with
  | nil => rfl
  | cons c s ih =>
    simp only [List.mem_cons, not_or] at hlt hgt
    rw [stripTags, if_neg (Ne.symm hlt.1), if_neg (Ne.symm hgt.1), if_neg (by simp), ih hlt.2 hgt.2]

theorem not_mem_escape (t : List Char) : '<' ∉ escape t ∧ '>' ∉ escape t := by
  have hchar (c : Char) : '<' ∉ escapeChar c ∧ '>' ∉ escapeChar c := by
    unfold escapeChar
    split
    · decide
    · split
      · decide
      · next hlt =>
        split
        · decide
        · next hgt =>
          split
          · decide
          · simp [Ne.symm hlt, Ne.symm hgt]
  unfold escape
  simp only [List.mem_flatMap, not_exists, not_and]
  exact ⟨fun c _ => (hchar c).1, fun c _ => (hchar c).2⟩

/-- The copy has a character boundary wherever the text has one, but for the end. -/
def SameBoundaries (s lower : List Char) : Prop :=
  ∀ a b, s = a ++ b → b ≠ [] → isCharBoundary lower (len a) = true

section Plain

variable {s lower opening closing : List Char}

theorem not_prefix_slice (hno : ¬ opening <:+: lower) {i : Nat} {rest : List Char}
    (h : sliceFrom lower i = some rest) : ¬ opening <+: rest := by
  obtain ⟨front, hlower, -⟩ := sliceFrom_eq_some.1 h
  intro hp
  exact hno (hlower ▸ hp.isInfix.trans (List.suffix_append front rest).isInfix)

theorem kept_plain (hno : ¬ opening <:+: lower) {a b : List Char} (hs : s = a ++ b) {ks : List (Nat × Char)}
    (h : Kept s lower opening closing (len a) ks) :
    ks.map Prod.snd = b ∧
      ∀ m r, b = m ++ r → r ≠ [] → isCharBoundary lower (len a + len m) = true := by
  induction b generalizing a ks with
  | nil =>
    rw [kept_past (by rw [hs, List.append_nil])] at h
    subst h
    exact ⟨rfl, fun m r hmr hr => absurd (List.append_eq_nil_iff.1 hmr.symm).2 hr⟩
  | cons c b ih =>
    have hpos := c.utf8Size_pos
    have hlt : len a < len s := by
      rw [hs, len_append, len_cons]
      omega
    obtain ⟨rest, hrest⟩ := kept_slice hlt h
    obtain ⟨d, here, ks', hhere, rfl, hks⟩ := (kept_char hlt hrest (not_prefix_slice hno hrest)).1 h
    rw [hs, sliceFrom_len] at hhere
    cases hhere
    have hnext : len (a ++ [c]) = len a + c.utf8Size := by simp
    rw [← hnext] at hks
    obtain ⟨hmap, hlater⟩ := ih (by rw [hs]; simp) hks
    refine ⟨by rw [List.map_cons, hmap], fun m r hmr hr => ?_⟩
    cases m with
    | nil =>
      obtain ⟨front, hlower, hfront⟩ := sliceFrom_eq_some.1 hrest
      exact isCharBoundary_iff.2 ⟨front, rest, hlower, hfront⟩
    | cons e m =>
      obtain ⟨rfl, hb⟩ := List.cons.inj hmr
      have := hlater m r hb hr
      rwa [hnext, Nat.add_assoc, ← len_cons] at this

theorem kept_of_boundaries (closing : List Char) (hno : ¬ opening <:+: lower) (h : SameBoundaries s lower)
    {a b : List Char} (hs : s = a ++ b) : ∃ ks, Kept s lower opening closing (len a) ks := by
  induction b generalizing a with
  | nil => exact ⟨[], .past (by rw [hs, List.append_nil])⟩
  | cons c b ih =>
    have hpos := c.utf8Size_pos
    have hlt : len a < len s := by
      rw [hs, len_append, len_cons]
      omega
    obtain ⟨front, rest, hlower, hfront⟩ := isCharBoundary_iff.1 (h a (c :: b) hs (by simp))
    have hrest : sliceFrom lower (len a) = some rest := sliceFrom_eq_some.2 ⟨front, hlower, hfront⟩
    have hnext : len (a ++ [c]) = len a + c.utf8Size := by simp
    obtain ⟨ks, hks⟩ := ih (a := a ++ [c]) (by rw [hs]; simp)
    rw [hnext] at hks
    exact ⟨_, .char hlt hrest (not_prefix_slice hno hrest) (hs ▸ sliceFrom_len a (c :: b)) hks⟩

/-- Where nothing opens in the copy, the text comes out as it is unless a slice stops the loop. -/
theorem stripBlock_plain {L : LowerCase} (hclosing : closing ≠ []) (hno : ¬ opening <:+: L.toLowercase s)
    {r : List Char} :
    stripBlock L s opening closing = some r ↔ r = s ∧ SameBoundaries s (L.toLowercase s) := by
  have hloop (ks : List (Nat × Char)) : keptBy L s opening closing = some ks ↔
      Kept s (L.toLowercase s) opening closing (len []) ks :=
    stripFrom_eq_some hclosing (Nat.le_refl _)
  rw [stripBlock, Option.map_eq_some_iff]
  constructor
  · rintro ⟨ks, hks, rfl⟩
    obtain ⟨hmap, hboundaries⟩ := kept_plain hno (List.nil_append s).symm ((hloop ks).1 hks)
    refine ⟨hmap, fun a b hs hb => ?_⟩
    simpa using hboundaries a b hs hb
  · rintro ⟨rfl, h⟩
    obtain ⟨ks, hks⟩ := kept_of_boundaries closing hno h (List.nil_append r).symm
    exact ⟨ks, (hloop ks).2 hks, (kept_plain hno (List.nil_append r).symm hks).1⟩

end Plain

/-! ## The round trip -/

/-- Lower case in which nothing but a less-than sign gives one. -/
structure TagLower extends LowerCase where
  lower_lt : ∀ c, '<' ∈ lower c → c = '<'

theorem mem_toLowercase (L : TagLower) {s : List Char} (h : '<' ∈ L.toLowercase s) : '<' ∈ s := by
  have hmap : '<' ∈ s.flatMap L.lower := by
    rw [← L.toLowercase_sigma]
    exact List.mem_map.2 ⟨'<', h, by decide⟩
  obtain ⟨c, hc, hlt⟩ := List.mem_flatMap.1 hmap
  exact L.lower_lt c hlt ▸ hc

/-- The text comes back up to the trimming of lines and the collapsing of blank ones. -/
def Survives (L : TagLower) (t : List Char) : Prop :=
  htmlToText L.toLowerCase (escape t) = some (collapse t)

/-- Nothing in the text looks like an entity but for the ampersand's, and lower case moves no
character boundary of the escaped text. -/
structure Plain (L : TagLower) (t : List Char) : Prop where
  noEntity : ∀ e ∈ entities.tail, ¬ e.1.toList <:+: t
  boundaries : SameBoundaries (escape t) (L.toLowercase (escape t))

theorem htmlToText_escape (L : TagLower) (t r : List Char) :
    htmlToText L.toLowerCase (escape t) = some r ↔
      r = collapse (decodeRest t) ∧ SameBoundaries (escape t) (L.toLowercase (escape t)) := by
  obtain ⟨hlt, hgt⟩ := not_mem_escape t
  have hno (p : List Char) (hp : '<' ∈ p) : ¬ p <:+: L.toLowercase (escape t) := fun h =>
    hlt (mem_toLowercase L (h.subset hp))
  have hscript (s : List Char) : stripBlock L.toLowerCase (escape t) scriptOpen scriptClose = some s ↔
      s = escape t ∧ SameBoundaries (escape t) (L.toLowercase (escape t)) :=
    stripBlock_plain (by decide) (hno scriptOpen (by decide))
  have hstyle (s : List Char) : stripBlock L.toLowerCase (escape t) styleOpen styleClose = some s ↔
      s = escape t ∧ SameBoundaries (escape t) (L.toLowercase (escape t)) :=
    stripBlock_plain (by decide) (hno styleOpen (by decide))
  have hpage : collapse (decodeEntities (stripTags false (escape t))) = collapse (decodeRest t) := by
    rw [stripTags_self hlt hgt, decode_escape]
  rw [htmlToText, Option.bind_eq_some_iff]
  constructor
  · rintro ⟨s, hs, hr⟩
    obtain ⟨rfl, hboundaries⟩ := (hscript s).1 hs
    obtain ⟨s', hs', rfl⟩ := Option.map_eq_some_iff.1 hr
    obtain ⟨rfl, -⟩ := (hstyle s').1 hs'
    exact ⟨hpage, hboundaries⟩
  · rintro ⟨hr, hboundaries⟩
    refine ⟨escape t, (hscript (escape t)).2 ⟨rfl, hboundaries⟩, ?_⟩
    rw [(hstyle (escape t)).2 ⟨rfl, hboundaries⟩, Option.map_some, hpage, hr]

theorem survives_iff (L : TagLower) (t : List Char) : Survives L t ↔ Plain L t := by
  unfold Survives
  rw [htmlToText_escape]
  constructor
  · rintro ⟨h, hboundaries⟩
    exact ⟨(collapse_decodeRest t).1 h.symm, hboundaries⟩
  · rintro ⟨h, hboundaries⟩
    exact ⟨((collapse_decodeRest t).2 h).symm, hboundaries⟩

/-- Lower case of ASCII. -/
def asciiTags : TagLower where
  toLowerCase := asciiLower
  lower_lt c hc := by
    have hlower : sigma c.toLower = '<' := (List.mem_singleton.1 hc).symm
    unfold sigma at hlower
    split at hlower
    · cases hlower
    · by_cases hletter : c.val ≥ 'A'.val ∧ c.val ≤ 'Z'.val
      · have hletters : ∀ n < 0x80, (Char.ofNat n).toLower = '<' → Char.ofNat n = '<' := by decide +kernel
        have hle : c.toNat ≤ 90 := UInt32.le_iff_toNat_le.1 hletter.2
        have hall := hletters c.toNat (by omega)
        rw [Char.ofNat_toNat] at hall
        exact hall hlower
      · rwa [show c.toLower = c from dif_neg hletter] at hlower

/-- An escaped entity is decoded twice. -/
theorem survives_fails :
    ∃ L, ¬ Survives L "&lt;".toList ∧ htmlToText L.toLowerCase (escape "&lt;".toList) = some ['<', '\n'] ∧
      collapse "&lt;".toList = "&lt;\n".toList := by
  have htext : htmlToText asciiTags.toLowerCase (escape "&lt;".toList) = some ['<', '\n'] := by decide +kernel
  refine ⟨asciiTags, fun h => ?_, htext, by decide +kernel⟩
  rw [Survives, htext] at h
  exact absurd h (by decide +kernel)

end OhMyClaw.Html
