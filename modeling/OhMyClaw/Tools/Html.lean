import OhMyClaw.Core.CommandLines
import OhMyClaw.Lib.CutOut
import OhMyClaw.Lib.Find

/-!
# A page as text

`strip_block` looks for the blocks in a lower-cased copy and cuts them out of the text at the bytes
where it found them in the copy.  A character whose lower case is longer or shorter moves all that
is behind it.

    stripsRight_iff   when what is left is what stands outside the blocks of the text
    htmlRight_iff     the same for both calls a page goes through
    aligned_of_ascii  a text of ASCII characters is such a text
-/

namespace OhMyClaw.Html

open Bytes CutOut CommandLine

/-! ## The source -/

/-- The loop of `strip_block`, at byte `i`.  With every character pushed comes the byte it stood at.
A turn moves on by a byte at least. -/
def stripFrom (s lower opening closing : List Char) : Nat → Nat → Option (List (Nat × Char))
  | 0, i => if len s ≤ i then some [] else none
  | turns + 1, i =>
    if len s ≤ i then some []
    else
      (sliceFrom lower i).bind fun rest =>
        if opening <+: rest then
          match Find.cutAt closing rest with
          | some (ahead, _) => stripFrom s lower opening closing turns (i + (len ahead + len closing))
          | none => some []
        else
          (sliceFrom s i).bind fun here =>
            match here with
            | c :: _ => (stripFrom s lower opening closing turns (i + c.utf8Size)).map ((i, c) :: ·)
            | [] => none

def keptBy (L : LowerCase) (s opening closing : List Char) : Option (List (Nat × Char)) :=
  stripFrom s (L.toLowercase s) opening closing (len s) 0

def stripBlock (L : LowerCase) (s opening closing : List Char) : Option (List Char) :=
  (keptBy L s opening closing).map fun ks => ks.map Prod.snd

/-- The loop of `strip_tags`, and of `html_to_text`. -/
def stripTags : Bool → List Char → List Char
  | _, [] => []
  | inTag, c :: s =>
    if c = '<' then stripTags true s
    else if c = '>' then stripTags false s
    else if inTag then stripTags inTag s
    else c :: stripTags inTag s

def entities : List (String × String) :=
  [("&amp;", "&"), ("&lt;", "<"), ("&gt;", ">"), ("&quot;", "\""), ("&#x27;", "'"), ("&nbsp;", " ")]

def decodeEntities (s : List Char) : List Char :=
  entities.foldl (fun s e => Find.replace e.1.toList e.2.toList s) s

/-- The lines one by one: trimmed, and of blank ones that follow each other the first. -/
def collapseLines : Bool → List (List Char) → List Char
  | _, [] => []
  | prevBlank, line :: lines =>
    let t := RustStr.trim line
    if t = [] then (if prevBlank then [] else ['\n']) ++ collapseLines true lines
    else t ++ '\n' :: collapseLines false lines

def collapse (s : List Char) : List Char := collapseLines false (RustStr.lines s)

def scriptOpen : List Char := "<script".toList
def scriptClose : List Char := "</script>".toList
def styleOpen : List Char := "<style".toList
def styleClose : List Char := "</style>".toList

/-- `none` is a slice out of bounds or inside a character. -/
def htmlToText (L : LowerCase) (html : List Char) : Option (List Char) :=
  (stripBlock L html scriptOpen scriptClose).bind fun s =>
    (stripBlock L s styleOpen styleClose).map fun s => collapse (decodeEntities (stripTags false s))

/-! ## The blocks of a text -/

section Text

variable (L : LowerCase)

/-- The text behind characters at its head that read `p` in lower case. -/
def lowerRest : List Char → List Char → Option (List Char)
  | p, [] => if p = [] then some [] else none
  | p, c :: t =>
    if p = [] then some (c :: t)
    else if L.lower c <+: p then lowerRest (p.drop (L.lower c).length) t else none

/-- The text behind the next place that reads `p` in lower case. -/
def behindNext (p : List Char) : List Char → Option (List Char)
  | [] => lowerRest L p []
  | c :: t => (lowerRest L p (c :: t)).or (behindNext p t)

/-- A block of the text: from the opening string to the end of the next closing string. -/
def textBlock (opening closing t : List Char) : Option (Option (List Char)) :=
  (lowerRest L opening t).map fun _ => behindNext L closing t

/-- What is left is what stands outside the blocks, every character in its place. -/
def StripsRight (s opening closing : List Char) : Prop :=
  ∃ ks, keptBy L s opening closing = some ks ∧ Left (textBlock L opening closing) s s ks

/-- A block of the copy, where the strings stand as they are. -/
def copyBlock (opening closing t : List Char) : Option (Option (List Char)) :=
  if opening <+: t then some ((Find.cutAt closing t).map fun r => r.2.drop closing.length) else none

/-- The ends of a text at which a search outside the blocks starts: its beginning, and behind every
character that stays. -/
inductive Free (opening closing s : List Char) : List Char → Prop where
  | start : Free opening closing s s
  | next {t b : List Char} {c : Char} (ht : Free opening closing s t)
      (h : Hop (textBlock L opening closing) t (some (c :: b))) : Free opening closing s b

/-- Wherever a search starts, unless the text is over there, the copy has a character boundary at
the same byte, and the blocks that follow one another from there on end at the same byte in both, or
reach the end of the text in both. -/
def Aligned (s opening closing : List Char) : Prop :=
  ∀ t, Free L opening closing s t → t ≠ [] →
    ∃ a b, L.toLowercase s = a ++ b ∧ len a = pos s t ∧
      ∀ o o', Hop (textBlock L opening closing) t o → Hop (copyBlock opening closing) b o' →
        place (len s) s o = place (len s) (L.toLowercase s) o'

variable {L}

theorem lowerRest_append {p t r : List Char} (h : lowerRest L p t = some r) :
    ∃ w, t = w ++ r ∧ w.flatMap L.lower = p := by
  induction t generalizing p with
  | nil =>
    rw [lowerRest] at h
    split at h
    · next hp =>
      cases h
      exact ⟨[], rfl, hp.symm⟩
    · cases h
  | cons c t ih =>
    rw [lowerRest] at h
    split at h
    · next hp =>
      cases h
      exact ⟨[], rfl, hp.symm⟩
    · split at h
      · next hc =>
        obtain ⟨q, rfl⟩ := hc
        rw [List.drop_left] at h
        obtain ⟨w, rfl, rfl⟩ := ih h
        exact ⟨c :: w, rfl, rfl⟩
      · cases h

theorem behindNext_append {p t r : List Char} (h : behindNext L p t = some r) :
    ∃ u w, t = u ++ (w ++ r) ∧ w.flatMap L.lower = p := by
  induction t with
  | nil =>
    obtain ⟨w, hw, hp⟩ := lowerRest_append h
    exact ⟨[], w, hw, hp⟩
  | cons c t ih =>
    rw [behindNext, Option.or_eq_some_iff] at h
    rcases h with h | ⟨-, h⟩
    · obtain ⟨w, hw, hp⟩ := lowerRest_append h
      exact ⟨[], w, hw, hp⟩
    · obtain ⟨u, w, rfl, hp⟩ := ih h
      exact ⟨c :: u, w, rfl, hp⟩

theorem textBlock_shrinks (opening : List Char) {closing : List Char} (hclosing : closing ≠ []) :
    Shrinks (textBlock L opening closing) := by
  intro t r h
  unfold textBlock at h
  obtain ⟨-, -, hr⟩ := Option.map_eq_some_iff.1 h
  obtain ⟨u, w, rfl, hp⟩ := behindNext_append hr
  refine ⟨u ++ w, fun hnil => hclosing ?_, by rw [List.append_assoc]⟩
  rw [← hp, (List.append_eq_nil_iff.1 hnil).2]
  rfl

theorem copyBlock_eq_some {opening closing t r : List Char} (hclosing : closing ≠ []) :
    copyBlock opening closing t = some (some r) ↔
      opening <+: t ∧ ∃ ahead, Find.cutAt closing t = some (ahead, closing ++ r) := by
  unfold copyBlock
  split
  · next hopening =>
    simp only [Option.some.injEq, Option.map_eq_some_iff, hopening, true_and]
    constructor
    · rintro ⟨⟨ahead, b⟩, hcut, rfl⟩
      obtain ⟨-, ⟨b', rfl⟩, -⟩ := (Find.cutAt_eq_some hclosing).1 hcut
      exact ⟨ahead, by rw [hcut, List.drop_left]⟩
    · rintro ⟨ahead, hcut⟩
      exact ⟨_, hcut, List.drop_left⟩
  · next hopening => simp [hopening]

theorem copyBlock_eq_lost {opening closing t : List Char} :
    copyBlock opening closing t = some none ↔ opening <+: t ∧ Find.cutAt closing t = none := by
  unfold copyBlock
  split
  · next hopening => simp [hopening]
  · next hopening => simp [hopening]

theorem copyBlock_eq_none {opening closing t : List Char} :
    copyBlock opening closing t = none ↔ ¬ opening <+: t := by
  unfold copyBlock
  split
  · next hopening => simp [hopening]
  · next hopening => simp [hopening]

theorem copyBlock_shrinks (opening : List Char) {closing : List Char} (hclosing : closing ≠ []) :
    Shrinks (copyBlock opening closing) := by
  intro t r h
  obtain ⟨-, ahead, hcut⟩ := (copyBlock_eq_some hclosing).1 h
  obtain ⟨rfl, -, -⟩ := (Find.cutAt_eq_some hclosing).1 hcut
  exact ⟨ahead ++ closing, by simp [hclosing], by rw [List.append_assoc]⟩

end Text

/-! ## The loop by its turns -/

section Loop

variable {s lower opening closing : List Char} {i : Nat} {ks : List (Nat × Char)}

/-- What the loop keeps from byte `i` on. -/
inductive Kept (s lower opening closing : List Char) : Nat → List (Nat × Char) → Prop where
  | past {i : Nat} (hi : len s ≤ i) : Kept s lower opening closing i []
  | block {i : Nat} {rest ahead behind : List Char} {ks : List (Nat × Char)} (hi : i < len s)
      (hrest : sliceFrom lower i = some rest) (hopening : opening <+: rest)
      (hcut : Find.cutAt closing rest = some (ahead, behind))
      (hks : Kept s lower opening closing (i + (len ahead + len closing)) ks) :
      Kept s lower opening closing i ks
  | unclosed {i : Nat} {rest : List Char} (hi : i < len s) (hrest : sliceFrom lower i = some rest)
      (hopening : opening <+: rest) (hcut : Find.cutAt closing rest = none) :
      Kept s lower opening closing i []
  | char {i : Nat} {c : Char} {rest here : List Char} {ks : List (Nat × Char)} (hi : i < len s)
      (hrest : sliceFrom lower i = some rest) (hopening : ¬ opening <+: rest)
      (hhere : sliceFrom s i = some (c :: here)) (hks : Kept s lower opening closing (i + c.utf8Size) ks) :
      Kept s lower opening closing i ((i, c) :: ks)

theorem kept_past (hi : len s ≤ i) : Kept s lower opening closing i ks ↔ ks = [] := by
  constructor
  · intro h
    cases h with
    | past _ => rfl
    | block hi' => omega
    | unclosed hi' => rfl
    | char hi' => omega
  · rintro rfl
    exact .past hi

theorem kept_slice (hi : i < len s) (h : Kept s lower opening closing i ks) :
    ∃ rest, sliceFrom lower i = some rest := by
  cases h with
  | past hi' => omega
  | block _ hrest => exact ⟨_, hrest⟩
  | unclosed _ hrest => exact ⟨_, hrest⟩
  | char _ hrest => exact ⟨_, hrest⟩

theorem kept_block {rest ahead behind : List Char} (hi : i < len s) (hrest : sliceFrom lower i = some rest)
    (hopening : opening <+: rest) (hcut : Find.cutAt closing rest = some (ahead, behind)) :
    Kept s lower opening closing i ks ↔
      Kept s lower opening closing (i + (len ahead + len closing)) ks := by
  constructor
  · intro h
    cases h with
    | past hi' => omega
    | block _ hrest' _ hcut' hks =>
      rw [hrest] at hrest'
      cases hrest'
      rw [hcut] at hcut'
      cases hcut'
      exact hks
    | unclosed _ hrest' _ hcut' =>
      rw [hrest] at hrest'
      cases hrest'
      rw [hcut] at hcut'
      cases hcut'
    | char _ hrest' hopening' =>
      rw [hrest] at hrest'
      cases hrest'
      exact absurd hopening hopening'
  · exact .block hi hrest hopening hcut

theorem kept_unclosed {rest : List Char} (hi : i < len s) (hrest : sliceFrom lower i = some rest)
    (hopening : opening <+: rest) (hcut : Find.cutAt closing rest = none) :
    Kept s lower opening closing i ks ↔ ks = [] := by
  constructor
  · intro h
    cases h with
    | past _ => rfl
    | block _ hrest' _ hcut' =>
      rw [hrest] at hrest'
      cases hrest'
      rw [hcut] at hcut'
      cases hcut'
    | unclosed _ => rfl
    | char _ hrest' hopening' =>
      rw [hrest] at hrest'
      cases hrest'
      exact absurd hopening hopening'
  · rintro rfl
    exact .unclosed hi hrest hopening hcut

theorem kept_char {rest : List Char} (hi : i < len s) (hrest : sliceFrom lower i = some rest)
    (hopening : ¬ opening <+: rest) :
    Kept s lower opening closing i ks ↔ ∃ c here ks', sliceFrom s i = some (c :: here) ∧
      ks = (i, c) :: ks' ∧ Kept s lower opening closing (i + c.utf8Size) ks' := by
  constructor
  · intro h
    cases h with
    | past hi' => omega
    | block _ hrest' hopening' =>
      rw [hrest] at hrest'
      cases hrest'
      exact absurd hopening' hopening
    | unclosed _ hrest' hopening' =>
      rw [hrest] at hrest'
      cases hrest'
      exact absurd hopening' hopening
    | char _ _ _ hhere hks => exact ⟨_, _, _, hhere, rfl, hks⟩
  · rintro ⟨c, here, ks', hhere, rfl, hks⟩
    exact .char hi hrest hopening hhere hks

/-- With a turn for every byte left the loop comes to its end, unless a slice stops it. -/
theorem stripFrom_eq_some (hclosing : closing ≠ []) {turns : Nat} (hturns : len s ≤ turns + i) :
    stripFrom s lower opening closing turns i = some ks ↔ Kept s lower opening closing i ks := by
  induction turns generalizing i ks with
  | zero =>
    rw [stripFrom, if_pos (by omega), kept_past (by omega)]
    simp [eq_comm]
  | succ turns ih =>
    rw [stripFrom]
    by_cases hi : len s ≤ i
    · rw [if_pos hi, kept_past hi]
      simp [eq_comm]
    · rw [if_neg hi]
      cases hrest : sliceFrom lower i with
      | none =>
        refine Iff.intro (fun h => by cases h) fun h => ?_
        obtain ⟨rest, hsome⟩ := kept_slice (by omega) h
        rw [hrest] at hsome
        cases hsome
      | some rest =>
        rw [Option.bind_some]
        by_cases hopening : opening <+: rest
        · rw [if_pos hopening]
          cases hcut : Find.cutAt closing rest with
          | none =>
            rw [kept_unclosed (by omega) hrest hopening hcut]
            simp [eq_comm]
          | some r =>
            have hpos : 0 < len closing := by
              have := mt len_eq_zero.1 hclosing
              omega
            rw [kept_block (by omega) hrest hopening hcut]
            exact ih (by omega)
        · rw [if_neg hopening, kept_char (by omega) hrest hopening]
          cases hhere : sliceFrom s i with
          | none => simp
          | some here =>
            cases here with
            | nil => simp
            | cons c here =>
              have hpos := c.utf8Size_pos
              simp only [Option.bind_some, Option.map_eq_some_iff]
              constructor
              · rintro ⟨ks', hks', rfl⟩
                exact ⟨c, here, ks', rfl, rfl, (ih (by omega)).1 hks'⟩
              · rintro ⟨d, there, ks', hsame, rfl, hks'⟩
                cases hsame
                exact ⟨ks', (ih (by omega)).2 hks', rfl⟩

theorem sliceFrom_len (a b : List Char) : sliceFrom (a ++ b) (len a) = some b :=
  sliceFrom_eq_some.2 ⟨a, rfl, rfl⟩

/-- The loop passes the blocks of the copy that follow one another. -/
theorem kept_hop (hclosing : closing ≠ []) {a b : List Char} (hlower : lower = a ++ b)
    {o : Option (List Char)} (h : Hop (copyBlock opening closing) b o) :
    Kept s lower opening closing (len a) ks ↔ Kept s lower opening closing (place (len s) lower o) ks := by
  induction h generalizing a with
  | @stay t h =>
    have hpos : pos lower t = len a := hlower ▸ pos_append a t
    by_cases hlen : len s ≤ len a
    · rw [kept_past hlen, kept_past (by simp only [place, Option.elim_some, hpos]; omega)]
    · simp only [place, Option.elim_some, hpos, Nat.min_eq_right (Nat.le_of_not_le hlen)]
  | @lost t h =>
    obtain ⟨hopening, hcut⟩ := copyBlock_eq_lost.1 h
    have hplace : place (len s) lower none = len s := rfl
    rw [hplace, kept_past (Nat.le_refl _)]
    by_cases hlen : len s ≤ len a
    · rw [kept_past hlen]
    · rw [kept_unclosed (by omega) (hlower ▸ sliceFrom_len a t) hopening hcut]
  | @on t t' o h ho ih =>
    obtain ⟨hopening, ahead, hcut⟩ := (copyBlock_eq_some hclosing).1 h
    obtain ⟨rfl, -, -⟩ := (Find.cutAt_eq_some hclosing).1 hcut
    rw [← ih (a := a ++ (ahead ++ closing)) (by rw [hlower]; simp)]
    have hlens : len (a ++ (ahead ++ closing)) = len a + (len ahead + len closing) := by
      rw [len_append, len_append]
    rw [hlens]
    by_cases hlen : len s ≤ len a
    · rw [kept_past hlen, kept_past (by omega)]
    · exact kept_block (by omega) (hlower ▸ sliceFrom_len a _) hopening hcut

/-- Behind the blocks of the copy the loop keeps a character, unless it is at the end. -/
theorem kept_place (hclosing : closing ≠ []) {a b : List Char} (hlower : lower = a ++ b)
    {o : Option (List Char)} (h : Hop (copyBlock opening closing) b o)
    (hlt : place (len s) lower o < len s) :
    Kept s lower opening closing (place (len s) lower o) ks ↔ ∃ c here ks',
      sliceFrom s (place (len s) lower o) = some (c :: here) ∧ ks = (place (len s) lower o, c) :: ks' ∧
        Kept s lower opening closing (place (len s) lower o + c.utf8Size) ks' := by
  cases o with
  | none => exact absurd hlt (Nat.lt_irrefl _)
  | some r =>
    obtain ⟨m, rfl, hr⟩ := h.suffix (copyBlock_shrinks opening hclosing) r rfl
    have hpos : pos lower r = len (a ++ m) := by
      rw [hlower, ← List.append_assoc]
      exact pos_append _ r
    have hplace : place (len s) lower (some r) = len (a ++ m) := by
      simp only [place, Option.elim_some, hpos] at hlt ⊢
      omega
    have hrest : sliceFrom lower (place (len s) lower (some r)) = some r := by
      rw [hplace, hlower, ← List.append_assoc]
      exact sliceFrom_len _ r
    exact kept_char hlt hrest (copyBlock_eq_none.1 hr)

theorem kept_head (hclosing : closing ≠ []) {a b : List Char} (hlower : lower = a ++ b)
    {o : Option (List Char)} (h : Hop (copyBlock opening closing) b o)
    (hks : Kept s lower opening closing (place (len s) lower o) ks) :
    place (len s) lower o = headPos (len s) ks := by
  have hle := place_le (len s) lower o
  rcases Nat.lt_or_ge (place (len s) lower o) (len s) with hlt | hge
  · obtain ⟨c, here, ks', -, rfl, -⟩ := (kept_place hclosing hlower h hlt).1 hks
    rfl
  · obtain rfl := (kept_past hge).1 hks
    exact Nat.le_antisymm hle hge

end Loop

/-! ## The text and its copy side by side -/

section Strip

variable {L : LowerCase} {s opening closing t : List Char}

theorem free_suffix (hclosing : closing ≠ []) (h : Free L opening closing s t) : ∃ a, s = a ++ t := by
  induction h with
  | start => exact ⟨[], rfl⟩
  | @next t b c _ hhop ih =>
    obtain ⟨a, rfl⟩ := ih
    obtain ⟨m, rfl, -⟩ := hhop.suffix (textBlock_shrinks opening hclosing) _ rfl
    exact ⟨a ++ (m ++ [c]), by simp⟩

/-- What the text has left and what the loop keeps are the same. -/
def Same (L : LowerCase) (s opening closing t : List Char) : Prop :=
  ∃ ks, Left (textBlock L opening closing) s t ks ∧
    Kept s (L.toLowercase s) opening closing (pos s t) ks

theorem stripsRight_iff_same (hclosing : closing ≠ []) :
    StripsRight L s opening closing ↔ Same L s opening closing s := by
  have hloop (ks : List (Nat × Char)) :
      stripFrom s (L.toLowercase s) opening closing (len s) 0 = some ks ↔
        Kept s (L.toLowercase s) opening closing 0 ks :=
    stripFrom_eq_some hclosing (Nat.le_refl _)
  unfold StripsRight Same keptBy
  simp only [pos_self, hloop, and_comm]

/-- Where both are the same at the end of the blocks, they keep the character there and are the same
behind it. -/
theorem same_tail (hclosing : closing ≠ []) {c : Char} {b : List Char} (ht : Free L opening closing s t)
    (h : Hop (textBlock L opening closing) t (some (c :: b))) (hsame : Same L s opening closing t) :
    Same L s opening closing b := by
  obtain ⟨ks, hleft, hkept⟩ := hsame
  obtain ⟨a, hs⟩ := free_suffix hclosing ht
  obtain ⟨m, hm, hnone⟩ := h.suffix (textBlock_shrinks opening hclosing) _ rfl
  rcases left_none hnone ((left_hop h).1 hleft) with ⟨hnil, -⟩ | ⟨c', b', ks', hcb, rfl, hb⟩
  · cases hnil
  · cases hcb
    have hlt : pos s (c :: b) < len s := pos_lt (a := a ++ m) (by rw [hs, hm, List.append_assoc])
    have hstart : pos s t < len s := by
      obtain ⟨d, u, rfl⟩ : ∃ d u, t = d :: u := List.exists_cons_of_ne_nil (by rw [hm]; simp)
      exact pos_lt hs
    obtain ⟨rest, hrest⟩ := kept_slice hstart hkept
    obtain ⟨front, hlower, hfront⟩ := sliceFrom_eq_some.1 hrest
    obtain ⟨o', ho'⟩ := exists_hop (copyBlock_shrinks opening hclosing) rest
    rw [← hfront] at hkept
    have hkept' := (kept_hop hclosing hlower ho').1 hkept
    have hplace : place (len s) (L.toLowercase s) o' = pos s (c :: b) := kept_head hclosing hlower ho' hkept'
    obtain ⟨d, here, ks'', -, hks, hrest'⟩ := (kept_place hclosing hlower ho' (hplace ▸ hlt)).1 hkept'
    obtain ⟨hkc, rfl⟩ := List.cons.inj hks
    obtain ⟨-, rfl⟩ := Prod.mk.inj hkc
    refine ⟨ks', hb, ?_⟩
    rwa [hplace, ← pos_tail (a := a ++ m) (by rw [hs, hm, List.append_assoc])] at hrest'

/-- Where they are aligned at the end of the blocks and the same behind the character there, they are
the same. -/
theorem same_of_tail (hclosing : closing ≠ []) (ht : Free L opening closing s t)
    (haligned : Aligned L s opening closing)
    (htail : ∀ c b, Hop (textBlock L opening closing) t (some (c :: b)) → Same L s opening closing b) :
    Same L s opening closing t := by
  obtain ⟨a, hs⟩ := free_suffix hclosing ht
  by_cases hne : t = []
  · subst hne
    obtain ⟨ks, hks⟩ := exists_left (textBlock_shrinks (L := L) opening hclosing) s []
    refine ⟨ks, hks, (kept_past ?_).2 (left_nil (textBlock_shrinks opening hclosing) hks)⟩
    simp [pos]
  · obtain ⟨front, rest, hlower, hfront, hplaces⟩ := haligned t ht hne
    obtain ⟨o, ho⟩ := exists_hop (textBlock_shrinks (L := L) opening hclosing) t
    obtain ⟨o', ho'⟩ := exists_hop (copyBlock_shrinks opening hclosing) rest
    have hplace := hplaces o o' ho ho'
    -- What is kept from here is what is kept from the end of the blocks.
    have hhop (ks : List (Nat × Char)) : Kept s (L.toLowercase s) opening closing (pos s t) ks ↔
        Kept s (L.toLowercase s) opening closing (place (len s) s o) ks := by
      rw [← hfront, hplace]
      exact kept_hop hclosing hlower ho'
    cases o with
    | none => exact ⟨[], (left_hop ho).2 rfl, (hhop []).2 (.past (Nat.le_refl _))⟩
    | some r =>
      obtain ⟨m, hm, hnone⟩ := ho.suffix (textBlock_shrinks opening hclosing) r rfl
      cases r with
      | nil =>
        refine ⟨[], (left_hop ho).2 (.nil hnone), (hhop []).2 (.past ?_)⟩
        simp [place, pos]
      | cons c b =>
        obtain ⟨ks, hleft, hkept⟩ := htail c b ho
        have hwhole : s = (a ++ m) ++ c :: b := by rw [hs, hm, List.append_assoc]
        have hlt : pos s (c :: b) < len s := pos_lt hwhole
        have hstand : place (len s) s (some (c :: b)) = pos s (c :: b) :=
          Nat.min_eq_right (Nat.le_of_lt hlt)
        refine ⟨_, (left_hop ho).2 (.char hnone hleft), (hhop _).2 ?_⟩
        rw [hplace]
        rw [hstand] at hplace
        refine (kept_place hclosing hlower ho' (hplace ▸ hlt)).2 ⟨c, b, ks, ?_, by rw [← hplace], ?_⟩
        · rw [← hplace, hwhole, pos_append]
          exact sliceFrom_len _ _
        · rwa [← hplace, ← pos_tail hwhole]

/-- The blocks are cut out right exactly when the copy is aligned with the text wherever a search
starts. -/
theorem stripsRight_iff (hclosing : closing ≠ []) :
    StripsRight L s opening closing ↔ Aligned L s opening closing := by
  rw [stripsRight_iff_same hclosing]
  constructor
  · intro hsame
    have hall : ∀ t, Free L opening closing s t → Same L s opening closing t := by
      intro t ht
      induction ht with
      | start => exact hsame
      | next ht hhop ih => exact same_tail hclosing ht hhop ih
    intro t ht hne
    obtain ⟨ks, hleft, hkept⟩ := hall t ht
    obtain ⟨a, hs⟩ := free_suffix hclosing ht
    obtain ⟨d, u, rfl⟩ := List.exists_cons_of_ne_nil hne
    obtain ⟨rest, hrest⟩ := kept_slice (pos_lt hs) hkept
    obtain ⟨front, hlower, hfront⟩ := sliceFrom_eq_some.1 hrest
    refine ⟨front, rest, hlower, hfront, fun o o' ho ho' => ?_⟩
    rw [← hfront] at hkept
    rw [left_head (textBlock_shrinks opening hclosing) hs ho hleft,
      kept_head hclosing hlower ho' ((kept_hop hclosing hlower ho').1 hkept)]
  · intro haligned
    have hall : ∀ n t, t.length = n → Free L opening closing s t → Same L s opening closing t := by
      intro n
      induction n using Nat.strong_induction_on with
      | _ n ih =>
        intro t hn ht
        refine same_of_tail hclosing ht haligned fun c b hhop => ?_
        obtain ⟨m, hm, -⟩ := hhop.suffix (textBlock_shrinks opening hclosing) _ rfl
        refine ih b.length ?_ b rfl (.next ht hhop)
        rw [← hn, hm, List.length_append, List.length_cons]
        omega
    exact hall s.length s rfl .start

end Strip

/-! ## Texts of ASCII characters -/

section Ascii

variable {L : LowerCase} {s t opening closing : List Char}

def Ascii (s : List Char) : Prop := ∀ c ∈ s, c.toNat < 0x80

theorem toLowercase_ascii (h : Ascii s) : L.toLowercase s = s.map Char.toLower := by
  refine map_sigma_eq ?_ ?_
  · intro hmem
    obtain ⟨c, hc, hlower⟩ := List.mem_map.1 hmem
    have hall : ∀ n < 0x80, (Char.ofNat n).toLower ≠ 'σ' := by decide +kernel
    have hne := hall c.toNat (h c hc)
    rw [Char.ofNat_toNat] at hne
    exact hne hlower
  · rw [L.toLowercase_sigma, List.map_eq_flatMap]
    exact List.flatMap_congr fun c hc => L.lower_ascii c (h c hc)

theorem len_ascii (h : Ascii s) : len (s.map Char.toLower) = len s := by
  induction s with
  | nil => rfl
  | cons c s ih =>
    have hall : ∀ n < 0x80, (Char.ofNat n).toLower.utf8Size = (Char.ofNat n).utf8Size := by decide +kernel
    have hsize := hall c.toNat (h c List.mem_cons_self)
    rw [Char.ofNat_toNat] at hsize
    rw [List.map_cons, len_cons, len_cons, hsize, ih fun d hd => h d (List.mem_cons_of_mem _ hd)]

theorem lowerRest_ascii (h : Ascii t) (p : List Char) :
    (lowerRest L p t).map (List.map Char.toLower) =
      if p <+: t.map Char.toLower then some ((t.map Char.toLower).drop p.length) else none := by
  induction t generalizing p with
  | nil => cases p <;> simp [lowerRest]
  | cons c t ih =>
    rw [lowerRest, L.lower_ascii c (h c List.mem_cons_self)]
    cases p with
    | nil => simp
    | cons d p =>
      rw [if_neg (by simp), List.map_cons]
      by_cases hd : d = c.toLower
      · subst hd
        have hrest := ih (fun x hx => h x (List.mem_cons_of_mem _ hx)) p
        rw [if_pos (List.cons_prefix_cons.2 ⟨rfl, List.nil_prefix⟩)]
        by_cases hp : p <+: t.map Char.toLower
        · rw [if_pos hp] at hrest
          rw [if_pos (List.cons_prefix_cons.2 ⟨rfl, hp⟩)]
          exact hrest
        · rw [if_neg hp] at hrest
          rw [if_neg fun hc => hp (List.cons_prefix_cons.1 hc).2]
          exact hrest
      · rw [if_neg fun hc => hd (List.cons_prefix_cons.1 hc).1.symm,
          if_neg fun hc => hd (List.cons_prefix_cons.1 hc).1]
        rfl

theorem behindNext_ascii (h : Ascii t) (p : List Char) :
    (behindNext L p t).map (List.map Char.toLower) =
      (Find.cutAt p (t.map Char.toLower)).map fun r => r.2.drop p.length := by
  induction t with
  | nil => cases p <;> simp [behindNext, lowerRest, Find.cutAt]
  | cons c t ih =>
    have hrest := ih fun x hx => h x (List.mem_cons_of_mem _ hx)
    have hhead := lowerRest_ascii (L := L) h p
    rw [behindNext, List.map_cons, Find.cutAt]
    rw [List.map_cons] at hhead
    by_cases hp : p <+: c.toLower :: t.map Char.toLower
    · rw [if_pos hp] at hhead
      obtain ⟨r, hr, hrd⟩ := Option.map_eq_some_iff.1 hhead
      rw [hr, if_pos hp]
      simp [hrd]
    · rw [if_neg hp, Option.map_eq_none_iff] at hhead
      rw [hhead, if_neg hp, Option.none_or, hrest, Option.map_map]
      rfl

theorem copyBlock_ascii (h : Ascii t) :
    copyBlock opening closing (t.map Char.toLower) =
      (textBlock L opening closing t).map (Option.map (List.map Char.toLower)) := by
  have hopening := lowerRest_ascii (L := L) h opening
  unfold copyBlock textBlock
  rw [← behindNext_ascii (L := L) h closing]
  by_cases hp : opening <+: t.map Char.toLower
  · rw [if_pos hp] at hopening ⊢
    obtain ⟨r, hr, -⟩ := Option.map_eq_some_iff.1 hopening
    rw [hr]
    rfl
  · rw [if_neg hp, Option.map_eq_none_iff] at hopening
    rw [if_neg hp, hopening]
    rfl

theorem hop_ascii (hclosing : closing ≠ []) (h : Ascii t) {o : Option (List Char)}
    (ho : Hop (textBlock L opening closing) t o) :
    Hop (copyBlock opening closing) (t.map Char.toLower) (o.map (List.map Char.toLower)) := by
  induction ho with
  | stay ht => exact .stay (by rw [copyBlock_ascii (L := L) h, ht]; rfl)
  | lost ht => exact .lost (by rw [copyBlock_ascii (L := L) h, ht]; rfl)
  | @on t t' o ht _ ih =>
    obtain ⟨m, -, rfl⟩ := textBlock_shrinks opening hclosing _ _ ht
    refine .on ?_ (ih fun c hc => h c (List.mem_append_right _ hc))
    rw [copyBlock_ascii (L := L) h, ht]
    rfl

theorem aligned_of_ascii (hclosing : closing ≠ []) (h : Ascii s) : Aligned L s opening closing := by
  intro t ht _
  obtain ⟨a, rfl⟩ := free_suffix hclosing ht
  have ha : Ascii a := fun c hc => h c (List.mem_append_left _ hc)
  have htail : Ascii t := fun c hc => h c (List.mem_append_right _ hc)
  rw [toLowercase_ascii h, List.map_append]
  refine ⟨_, _, rfl, by rw [len_ascii ha, pos_append], fun o o' ho ho' => ?_⟩
  obtain rfl := Hop.det (hop_ascii hclosing htail ho) ho'
  cases o with
  | none => rfl
  | some r =>
    obtain ⟨m, rfl, -⟩ := ho.suffix (textBlock_shrinks opening hclosing) r rfl
    have hr : Ascii r := fun c hc => htail c (List.mem_append_right _ hc)
    have hpos : pos (a.map Char.toLower ++ (m ++ r).map Char.toLower) (r.map Char.toLower) =
        pos (a ++ (m ++ r)) r := by
      rw [pos, ← List.map_append, len_ascii h, len_ascii hr]
      rfl
    exact congrArg (min _) hpos.symm

end Ascii

/-! ## A page -/

/-- The page comes out as text, and each of the two calls cuts out its blocks and nothing else. -/
structure HtmlRight (L : LowerCase) (html : List Char) : Prop where
  returns : (htmlToText L html).isSome
  script : StripsRight L html scriptOpen scriptClose
  style : ∀ s, stripBlock L html scriptOpen scriptClose = some s → StripsRight L s styleOpen styleClose

/-- The copy of the page is aligned with it, and so is the copy of what the scripts leave of it. -/
structure HtmlAligned (L : LowerCase) (html : List Char) : Prop where
  script : Aligned L html scriptOpen scriptClose
  style : ∀ ks, Left (textBlock L scriptOpen scriptClose) html html ks →
    Aligned L (ks.map Prod.snd) styleOpen styleClose

theorem htmlRight_iff (L : LowerCase) (html : List Char) : HtmlRight L html ↔ HtmlAligned L html := by
  have hscript : scriptClose ≠ [] := by decide
  have hstyle : styleClose ≠ [] := by decide
  constructor
  · rintro ⟨-, hright, hrest⟩
    refine ⟨(stripsRight_iff hscript).1 hright, fun ks hks => (stripsRight_iff hstyle).1 (hrest _ ?_)⟩
    obtain ⟨ks', hkept, hleft⟩ := hright
    rw [stripBlock, hkept, left_det hks hleft]
    rfl
  · rintro ⟨hright, hrest⟩
    obtain ⟨ks, hkept, hleft⟩ := (stripsRight_iff hscript).2 hright
    have hstrip : stripBlock L html scriptOpen scriptClose = some (ks.map Prod.snd) := by
      rw [stripBlock, hkept]
      rfl
    obtain ⟨ks', hkept', hleft'⟩ := (stripsRight_iff hstyle).2 (hrest ks hleft)
    refine ⟨?_, ⟨ks, hkept, hleft⟩, fun s hs => ?_⟩
    · rw [htmlToText, hstrip, Option.bind_some, stripBlock, hkept']
      rfl
    · rw [hstrip] at hs
      cases hs
      exact ⟨ks', hkept', hleft'⟩

/-- Lower case of ASCII and of two letters: one comes out longer, the other shorter. -/
def someLower : LowerCase where
  toLowercase s := s.flatMap fun c =>
    if c = 'İ' then ['i', '\u0307'] else if c = '\u212a' then ['k'] else [c.toLower]
  lower c := if c = 'İ' then ['i', '\u0307'] else if c = '\u212a' then ['k'] else [sigma c.toLower]
  toLowercase_sigma s := by
    rw [List.map_flatMap]
    congr 1
    funext c
    split
    · decide
    · split
      · decide
      · rfl
  lower_ascii c hc := by
    rw [if_neg (by rintro rfl; exact absurd hc (by decide)),
      if_neg (by rintro rfl; exact absurd hc (by decide))]
    exact asciiLower.lower_ascii c hc
  lower_whitespace c hc := by
    rw [if_neg (by rintro rfl; exact absurd hc (by decide)),
      if_neg (by rintro rfl; exact absurd hc (by decide))]
    exact asciiLower.lower_whitespace c hc

/-- A letter whose lower case is longer stops the program, or moves the end of the block it is in. -/
theorem htmlRight_fails :
    ∃ L, ¬ HtmlRight L "İa".toList ∧ htmlToText L "İa".toList = none ∧
      stripBlock L "<script>İ</script>ab".toList scriptOpen scriptClose = some ['b'] := by
  have hnone : htmlToText someLower "İa".toList = none := by decide +kernel
  refine ⟨someLower, fun h => ?_, hnone, by decide +kernel⟩
  have hreturns := h.returns
  rw [hnone] at hreturns
  cases hreturns

end OhMyClaw.Html
