import OhMyClaw.Core.CommandLines
import OhMyClaw.Core.Memory
import OhMyClaw.Lib.Bytes

/-!
# Orders to remember

The triggers of such an order are tried in the order of their list, and each that the lower case of the message
begins with is cut off the message itself at its length in bytes.  A trigger that nothing follows leaves the
message to the next one.

    detectSliced_eq      no cut goes through a character
    detected_iff         when a phrase leaves exactly what follows it
-/

namespace OhMyClaw

namespace Remember

open CommandLine (LowerCase)

/-! ## The phrases -/

/-- The words that make a trigger polite. -/
def politePrefixes : List String := ["请", "帮我", "please "]

/-- The triggers, and each behind the polite words of another. -/
def phrases : List String :=
  rememberTriggers ++ politePrefixes.flatMap fun p =>
    (rememberTriggers.filter fun t => ¬ RustStr.startsWith t.toList p.toList).map (p ++ ·)

def phraseChars : List Char := phrases.flatMap String.toList

/-- Lower case as the characters of the phrases have it: none is the lower case of anything but itself and its
capital, and no character is without one. -/
structure PhraseLower extends LowerCase where
  lower_ne : ∀ c, lower c ≠ []
  lower_self : ∀ d ∈ phraseChars, lower d = [d]
  of_lower : ∀ c, ∀ d ∈ phraseChars, d ∈ lower c → c.toLower = d

/-! ## The function -/

/-- The loop over the triggers; a cut through a character ends the program. -/
def detectFrom (trimmed lower : List Char) : List String → Option (Option String)
  | [] => some none
  | trig :: trigs =>
    if RustStr.startsWith lower trig.toList then do
      let rest ← Bytes.sliceFrom trimmed (Bytes.len trig.toList)
      let content := RustStr.trim (rest.dropWhile isLead)
      if content = [] then detectFrom trimmed lower trigs else some (some (String.ofList content))
    else detectFrom trimmed lower trigs

def detectSliced (toLowercase : List Char → List Char) (msg : String) : Option (Option String) :=
  let trimmed := RustStr.trimStart msg.toList
  detectFrom trimmed (toLowercase trimmed) rememberTriggers

/-! ## Lower case -/

section Lower

variable {L : PhraseLower} {p m w : List Char} {c d : Char}

/-- Only the capitals of ASCII have another lower case there. -/
theorem capital_or_self (c : Char) : (65 ≤ c.toNat ∧ c.toNat ≤ 90) ∨ c.toLower = c := by
  by_cases h : c.val ≥ 'A'.val ∧ c.val ≤ 'Z'.val
  · exact .inl ⟨UInt32.le_iff_toNat_le.1 h.1, UInt32.le_iff_toNat_le.1 h.2⟩
  · exact .inr (dif_neg h)

theorem toLower_of_not_ascii (h : 0x80 ≤ c.toNat) : c.toLower = c := by
  rcases capital_or_self c with ⟨-, hle⟩ | hself
  · omega
  · exact hself

/-- What a character of the phrases is the lower case of. -/
theorem lower_eq_iff (hd : d ∈ phraseChars) : d ∈ L.lower c ↔ L.lower c = [d] := by
  constructor
  · intro h
    have hc := L.of_lower c d hd h
    rcases Nat.lt_or_ge c.toNat 0x80 with hascii | hother
    · rw [L.lower_ascii c hascii, hc]
    · rw [toLower_of_not_ascii hother] at hc
      rw [hc, L.lower_self d hd]
  · intro h
    rw [h]
    exact List.mem_singleton_self d

theorem lower_eq_singleton (hd : d ∈ phraseChars) : L.lower c = [d] ↔ c.toLower = d := by
  constructor
  · exact fun h => L.of_lower c d hd ((lower_eq_iff hd).2 h)
  · rintro rfl
    rcases Nat.lt_or_ge c.toNat 0x80 with hascii | hother
    · exact L.lower_ascii c hascii
    · rw [toLower_of_not_ascii hother] at hd ⊢
      exact L.lower_self c hd

/-- For what is made of the characters of the phrases, lower case is that of ASCII. -/
theorem prefix_flatMap_iff (hp : ∀ d ∈ p, d ∈ phraseChars) :
    p <+: m.flatMap L.lower ↔ p <+: m.map Char.toLower := by
  induction p generalizing m with
  | nil => simp
  | cons d p ih =>
    rw [List.forall_mem_cons] at hp
    cases m with
    | nil => simp
    | cons c m =>
      rw [List.flatMap_cons, List.map_cons, List.cons_prefix_cons, ← ih hp.2]
      constructor
      · intro h
        obtain ⟨x, xs, hx⟩ := List.exists_cons_of_ne_nil (L.lower_ne c)
        have hdx : d = x := by
          rw [hx, List.cons_append, List.cons_prefix_cons] at h
          exact h.1
        have hmem : d ∈ L.lower c := by
          rw [hx, hdx]
          exact List.mem_cons_self
        have hlower := (lower_eq_iff hp.1).1 hmem
        rw [hlower, List.singleton_append, List.cons_prefix_cons] at h
        exact ⟨((lower_eq_singleton hp.1).1 hlower).symm, h.2⟩
      · rintro ⟨rfl, h⟩
        rw [(lower_eq_singleton hp.1).2 rfl, List.singleton_append, List.cons_prefix_cons]
        exact ⟨rfl, h⟩

theorem mem_phraseChars {t : String} (ht : t ∈ phrases) : ∀ d ∈ t.toList, d ∈ phraseChars :=
  fun _ hd => List.mem_flatMap.2 ⟨t, ht, hd⟩

theorem trigger_mem_phrases {t : String} (ht : t ∈ rememberTriggers) : t ∈ phrases := List.mem_append_left _ ht

theorem phraseChars_sigma : 'σ' ∉ phraseChars ∧ 'ς' ∉ phraseChars := by decide +kernel

/-- A message begins with a trigger where its own lower case of ASCII does. -/
theorem startsWith_toLowercase {t : String} (ht : t ∈ phrases) :
    RustStr.startsWith (L.toLowercase m) t.toList = true ↔ t.toList <+: m.map Char.toLower := by
  have hchars := mem_phraseChars ht
  rw [RustStr.startsWith_iff, CommandLine.prefix_toLowercase (fun h => phraseChars_sigma.1 (hchars _ h))
    (fun h => phraseChars_sigma.2 (hchars _ h)), prefix_flatMap_iff hchars]

theorem utf8Size_toLower (c : Char) : c.toLower.utf8Size = c.utf8Size := by
  rcases capital_or_self c with ⟨-, hle⟩ | hself
  · have hall : ∀ n < 91, (Char.ofNat n).toLower.utf8Size = (Char.ofNat n).utf8Size := by decide +kernel
    have hofNat := hall c.toNat (by omega)
    rwa [Char.ofNat_toNat] at hofNat
  · rw [hself]

theorem len_map_toLower (w : List Char) : Bytes.len (w.map Char.toLower) = Bytes.len w := by
  induction w with
  | nil => rfl
  | cons c w ih => rw [List.map_cons, Bytes.len_cons, Bytes.len_cons, utf8Size_toLower, ih]

/-- A trigger is as long in the message as in its lower case. -/
theorem sliceFrom_trigger {t : String} (h : t.toList <+: m.map Char.toLower) :
    Bytes.sliceFrom m (Bytes.len t.toList) = some (m.drop t.toList.length) := by
  obtain ⟨w, hw, heq⟩ := List.prefix_map_iff.1 h
  obtain ⟨rest, rfl⟩ := hw
  rw [Bytes.sliceFrom_eq_some]
  refine ⟨w, ?_, ?_⟩
  · rw [heq, List.length_map, List.drop_left]
  · rw [heq, len_map_toLower]

end Lower

/-! ## What the triggers leave -/

/-- What is to be remembered of the text behind a trigger. -/
def told (rest : List Char) : Option String :=
  let content := RustStr.trim (rest.dropWhile isLead)
  if content = [] then none else some (String.ofList content)

/-- The first trigger of the list that the message begins with and that leaves something. -/
def firstTold (toLowercase : List Char → List Char) (trimmed : List Char) (trigs : List String) : Option String :=
  trigs.findSome? fun trig =>
    if RustStr.startsWith (toLowercase trimmed) trig.toList then told (trimmed.drop trig.toList.length) else none

theorem detectExplicitMemory_eq (toLowercase : List Char → List Char) (msg : String) :
    detectExplicitMemory toLowercase msg = firstTold toLowercase (RustStr.trimStart msg.toList) rememberTriggers := rfl

/-- No cut goes through a character. -/
theorem detectFrom_eq (L : PhraseLower) (trimmed : List Char) {trigs : List String} (h : ∀ t ∈ trigs, t ∈ phrases) :
    detectFrom trimmed (L.toLowercase trimmed) trigs = some (firstTold L.toLowercase trimmed trigs) := by
  induction trigs with
  | nil => rfl
  | cons trig trigs ih =>
    rw [List.forall_mem_cons] at h
    rw [detectFrom, firstTold, List.findSome?_cons]
    by_cases hstarts : RustStr.startsWith (L.toLowercase trimmed) trig.toList = true
    · rw [if_pos hstarts, if_pos hstarts, sliceFrom_trigger ((startsWith_toLowercase h.1).1 hstarts), told]
      simp only [Option.bind_eq_bind, Option.bind_some]
      split
      · exact ih h.2
      · rfl
    · rw [if_neg hstarts, if_neg hstarts]
      exact ih h.2

theorem detectSliced_eq (L : PhraseLower) (msg : String) :
    detectSliced L.toLowercase msg = some (detectExplicitMemory L.toLowercase msg) :=
  detectFrom_eq L _ fun _ => trigger_mem_phrases

theorem findSome?_filter {α β : Type} (p : α → Bool) (f : α → Option β) (xs : List α) :
    (xs.findSome? fun x => if p x then f x else none) = (xs.filter p).findSome? f := by
  induction xs with
  | nil => rfl
  | cons x xs ih =>
    cases hp : p x with
    | true => rw [List.findSome?_cons, List.filter_cons_of_pos hp, List.findSome?_cons, if_pos hp, ih]
    | false =>
      rw [List.findSome?_cons, List.filter_cons_of_neg (by simp [hp]), if_neg (by simp [hp]), ih]

/-! ## A message that begins with a phrase -/

/-- The triggers a phrase begins with. -/
def triggersOf (t : String) : List String := rememberTriggers.filter fun u => RustStr.startsWith t.toList u.toList

/-- A phrase begins with at most one trigger, but for the one trigger that begins with another. -/
theorem triggersOf_all : phrases.all (fun t => triggersOf t = [] ∨ triggersOf t = [t] ∨
    t = "remember that " ∧ triggersOf t = [t, "remember "] ∨
      ∃ u ∈ rememberTriggers, u ≠ t ∧ t ∉ rememberTriggers ∧ triggersOf t = [u]) = true := by
  decide +kernel

/-- Behind a trigger, a phrase does not go on with what goes between an order and what is to be remembered. -/
theorem phrases_inside : phrases.all (fun t => (triggersOf t).all fun u =>
    u = t || (t.toList.drop u.toList.length).head?.any fun d => !isLead d) = true := by
  decide +kernel

theorem phrases_heads : phrases.all (fun t => t.toList.head?.any fun d => !isLead d) = true := by decide +kernel

/-- A message that is a phrase in any spelling, then what goes between, then a text that does not begin with that;
and no longer phrase begins it. -/
structure Begins (t : String) (w s X : List Char) : Prop where
  phrase : t ∈ phrases
  spelled : w.map Char.toLower = t.toList
  separators : ∀ c ∈ s, isLead c = true
  rest : ∀ c ∈ X.head?, isLead c = false
  longest : ∀ p ∈ phrases, p.toList <+: (w ++ s ++ X).map Char.toLower → p.toList.length ≤ t.toList.length

/-- The text, unless it is blank. -/
def expected (X : List Char) : Option String :=
  if RustStr.trim X = [] then none else some (String.ofList (RustStr.trim X))

section Message

variable {L : PhraseLower} {t u : String} {w s X rest : List Char} {c : Char}

theorem isLead_of_isWhitespace (h : RustStr.isWhitespace c = true) : isLead c = true := by simp [isLead, h]

/-- What goes between has no capitals. -/
theorem toLower_of_isLead (h : isLead c = true) : c.toLower = c := by
  rcases capital_or_self c with ⟨hge, hle⟩ | hself
  · have hall : ∀ n < 91, 65 ≤ n → isLead (Char.ofNat n) = false := by decide +kernel
    have hofNat := hall c.toNat (by omega) hge
    rw [Char.ofNat_toNat, h] at hofNat
    cases hofNat
  · exact hself

theorem told_separators (h : Begins t w s X) : told (s ++ X) = expected X := by
  have hdrop : (s ++ X).dropWhile isLead = X := by
    rw [List.dropWhile_append_of_pos h.separators]
    cases X with
    | nil => rfl
    | cons c X => rw [List.dropWhile_cons_of_neg (by simp [h.rest c rfl])]
  rw [told, hdrop, expected]

theorem not_blank_of_not_lead (h : isLead c = false) : RustStr.isWhitespace c = false := by
  cases hblank : RustStr.isWhitespace c with
  | false => rfl
  | true => rw [isLead_of_isWhitespace hblank] at h; cases h

theorem trim_of_head (hX : ∀ c ∈ X.head?, isLead c = false) : RustStr.trim X = RustStr.trimEnd X := by
  cases X with
  | nil => rfl
  | cons c X =>
    have hblank := not_blank_of_not_lead (hX c rfl)
    rw [RustStr.trim, RustStr.trimStart, List.dropWhile_cons_of_neg (by simp [hblank])]

/-- Where a trigger leaves a part of the phrase, that part becomes content. -/
theorem told_inside (hc : isLead c = false) (hX : ∀ c ∈ X.head?, isLead c = false) (v : List Char) :
    told (c :: v ++ X) ≠ expected X := by
  have hcontent : RustStr.trim ((c :: v ++ X).dropWhile isLead) = RustStr.trimEnd (c :: v ++ X) := by
    rw [List.cons_append, List.dropWhile_cons_of_neg (by simp [hc])]
    exact trim_of_head fun d hd => (Option.some.inj hd) ▸ hc
  have hne : RustStr.trimEnd (c :: v ++ X) ≠ [] := by
    intro hnil
    have hblank := List.rdropWhile_eq_nil_iff.1 hnil c List.mem_cons_self
    rw [not_blank_of_not_lead hc] at hblank
    cases hblank
  simp only [told, expected]
  rw [hcontent, if_neg hne, trim_of_head hX]
  by_cases hX' : RustStr.trimEnd X = []
  · rw [if_pos hX']
    exact Option.some_ne_none _
  · rw [if_neg hX', RustStr.trimEnd_append, if_neg hX']
    intro heq
    have hlen := congrArg List.length (String.ofList_injective (Option.some.inj heq))
    simp only [List.length_append, List.length_cons] at hlen
    omega

/-! ## The message -/

theorem message_begins (h : Begins t w s X) : t.toList <+: (w ++ s ++ X).map Char.toLower := by
  rw [List.append_assoc, List.map_append, h.spelled]
  exact List.prefix_append _ _

/-- A character whose lower case is no separator is none. -/
theorem not_lead_of_toLower {d : Char} (hd : isLead d = false) (hc : c.toLower = d) : isLead c = false := by
  cases hlead : isLead c with
  | false => rfl
  | true =>
    rw [toLower_of_isLead hlead] at hc
    rw [← hc, hlead] at hd
    cases hd

/-- The spelling of what begins with no separator begins with none. -/
theorem head_of_spelled {v r : List Char} (hv : v.map Char.toLower = r) (hr : (r.head?.any fun d => !isLead d) = true) :
    ∃ c v', v = c :: v' ∧ isLead c = false := by
  subst hv
  cases v with
  | nil => cases hr
  | cons c v => exact ⟨c, v, rfl, not_lead_of_toLower (by simpa using hr) rfl⟩

theorem trimStart_message (h : Begins t w s X) : RustStr.trimStart (w ++ s ++ X) = w ++ s ++ X := by
  obtain ⟨c, v, rfl, hc⟩ := head_of_spelled h.spelled (List.all_eq_true.1 phrases_heads t h.phrase)
  exact List.dropWhile_cons_of_neg (by simp [not_blank_of_not_lead hc])

/-- A trigger that is not the whole phrase leaves a part of it. -/
theorem told_part (h : Begins t w s X) (hu : u ∈ triggersOf t) (hne : u ≠ t) :
    told ((w ++ s ++ X).drop u.toList.length) ≠ expected X := by
  have hinside := List.all_eq_true.1 (List.all_eq_true.1 phrases_inside t h.phrase) u hu
  rw [Bool.or_eq_true, decide_eq_true_eq, or_iff_right hne] at hinside
  obtain ⟨c, v, hdrop, hc⟩ := head_of_spelled (v := w.drop u.toList.length) (by rw [List.map_drop, h.spelled]) hinside
  have hlen : u.toList.length ≤ w.length := by
    have hlt := congrArg List.length hdrop
    rw [List.length_drop, List.length_cons] at hlt
    omega
  rw [List.append_assoc, List.drop_append_of_le_length hlen, hdrop, ← List.append_assoc, List.cons_append]
  exact told_inside hc h.rest (v ++ s)

theorem told_whole (h : Begins t w s X) : told ((w ++ s ++ X).drop t.toList.length) = expected X := by
  rw [← h.spelled, List.length_map, List.append_assoc, List.drop_left]
  exact told_separators h

/-- The triggers a message begins with are those its phrase begins with. -/
theorem firstTold_message (L : PhraseLower) (h : Begins t w s X) :
    firstTold L.toLowercase (w ++ s ++ X) rememberTriggers =
      (triggersOf t).findSome? fun u => told ((w ++ s ++ X).drop u.toList.length) := by
  unfold firstTold triggersOf
  rw [findSome?_filter]
  congr 1
  refine List.filter_congr fun u hu => ?_
  rw [Bool.eq_iff_iff, startsWith_toLowercase (trigger_mem_phrases hu), RustStr.startsWith_iff]
  constructor
  · intro hbegins
    exact List.prefix_of_prefix_length_le hbegins (message_begins h) (h.longest u (trigger_mem_phrases hu) hbegins)
  · exact fun hprefix => hprefix.trans (message_begins h)

theorem mem_triggersOf : u ∈ triggersOf t ↔ u ∈ rememberTriggers ∧ u.toList <+: t.toList := by
  rw [triggersOf, List.mem_filter, RustStr.startsWith_iff]

theorem expected_eq_none : expected X = none ↔ RustStr.trim X = [] := by
  unfold expected
  split <;> simp_all

/-- What begins with no trigger is none. -/
theorem untriggered (hnil : triggersOf t = []) :
    (∀ u ∈ rememberTriggers, ¬ u.toList <+: t.toList) ∧ t ∉ rememberTriggers := by
  have hno : ∀ u ∈ rememberTriggers, ¬ u.toList <+: t.toList := by
    intro u hu hprefix
    have hmem := mem_triggersOf.2 ⟨hu, hprefix⟩
    rw [hnil] at hmem
    cases hmem
  exact ⟨hno, fun ht => hno t ht List.prefix_rfl⟩

/-- Behind the trigger that begins with another, a text is taken as it is; without one the other trigger takes a
part of the phrase. -/
theorem told_two (h : Begins t w s X) (htwo : triggersOf t = [t, u]) (hne : u ≠ t) :
    ([t, u].findSome? fun u => told ((w ++ s ++ X).drop u.toList.length)) = expected X ↔ RustStr.trim X ≠ [] := by
  have hpart := told_part h (htwo ▸ List.mem_cons_of_mem _ List.mem_cons_self) hne
  rw [List.findSome?_cons, told_whole h]
  cases hexpected : expected X with
  | none =>
    rw [hexpected] at hpart
    exact iff_of_false (by simpa using hpart) fun hrest => hrest (expected_eq_none.1 hexpected)
  | some content =>
    refine iff_of_true rfl fun hblank => ?_
    rw [expected_eq_none.2 hblank] at hexpected
    cases hexpected

/-- Nothing is cut inside a character; and a phrase leaves exactly what follows it where it is a trigger, but for
one that nothing follows and that begins with another, or where it begins with no trigger and nothing follows. -/
theorem detected_iff (L : PhraseLower) (t : String) (w s X : List Char) (h : Begins t w s X) :
    (∀ msg, (detectSliced L.toLowercase msg).isSome = true) ∧
      (detectSliced L.toLowercase (String.ofList (w ++ s ++ X)) = some (expected X) ↔
        (t ∈ rememberTriggers ∧ ¬ (t = "remember that " ∧ RustStr.trim X = [])) ∨
          (∀ u ∈ rememberTriggers, ¬ u.toList <+: t.toList) ∧ RustStr.trim X = []) := by
  refine ⟨fun msg => by rw [detectSliced_eq]; rfl, ?_⟩
  rw [detectSliced_eq, detectExplicitMemory_eq, String.toList_ofList, trimStart_message h, firstTold_message L h,
    Option.some_inj]
  have hall := List.all_eq_true.1 triggersOf_all t h.phrase
  rw [decide_eq_true_eq] at hall
  rcases hall with hnil | hself | ⟨rfl, htwo⟩ | ⟨u, hu, hne, hother, hone⟩
  · obtain ⟨hno, ht⟩ := untriggered hnil
    rw [hnil, List.findSome?_nil, eq_comm, expected_eq_none]
    constructor
    · exact fun hblank => .inr ⟨hno, hblank⟩
    · rintro (⟨htrigger, -⟩ | ⟨-, hblank⟩)
      · exact absurd htrigger ht
      · exact hblank
  · -- the phrase is the only trigger that the message begins with
    have ht : t ∈ rememberTriggers := (mem_triggersOf.1 (hself ▸ List.mem_cons_self)).1
    have hthat : t ≠ "remember that " := by
      rintro rfl
      exact absurd hself (by decide +kernel)
    rw [hself, List.findSome?_singleton, told_whole h]
    exact iff_of_true rfl (.inl ⟨ht, fun hthat' => hthat hthat'.1⟩)
  · -- the message may also be an order to remember "that"
    rw [htwo, told_two h htwo (by decide)]
    constructor
    · exact fun hrest => .inl ⟨by decide, fun hthat => hrest hthat.2⟩
    · rintro (⟨-, hthat⟩ | ⟨hno, -⟩)
      · exact fun hblank => hthat ⟨rfl, hblank⟩
      · exact absurd List.prefix_rfl (hno "remember that " (by decide))
  · -- a trigger cuts the phrase in two
    have hpart := told_part h (hone ▸ List.mem_singleton_self u) hne
    rw [hone, List.findSome?_singleton]
    refine iff_of_false hpart ?_
    rintro (⟨ht, -⟩ | ⟨hno, -⟩)
    · exact hother ht
    · exact hno u hu (mem_triggersOf.1 (hone ▸ List.mem_singleton_self u)).2

end Message

/-- Lower case of ASCII. -/
def asciiPhrases : PhraseLower where
  toLowerCase := CommandLine.asciiLower
  lower_ne _ := List.cons_ne_nil _ _
  lower_self := List.forall_iff_forall_mem.1 (by decide +kernel)
  of_lower c d hd h := by
    have hlower : CommandLine.sigma c.toLower = d := (List.mem_singleton.1 h).symm
    unfold CommandLine.sigma at hlower
    split at hlower
    · exact absurd (hlower ▸ hd) phraseChars_sigma.1
    · exact hlower

theorem begins_reply : Begins "记住" "记住".toList "：".toList "我喜欢简洁的回复".toList where
  phrase := trigger_mem_phrases (by decide)
  spelled := by decide +kernel
  separators := List.forall_iff_forall_mem.1 (by decide +kernel)
  rest c hc := by
    have hhead : "我喜欢简洁的回复".toList.head? = some '我' := by decide +kernel
    rw [← Option.some.inj (hhead.symm.trans hc)]
    decide
  longest := List.forall_iff_forall_mem.1 (by decide +kernel)

theorem detected_iff_reply : detectSliced asciiPhrases.toLowercase (String.ofList
    ("记住".toList ++ "：".toList ++ "我喜欢简洁的回复".toList)) = some (expected "我喜欢简洁的回复".toList) :=
  (detected_iff asciiPhrases "记住" "记住".toList "：".toList "我喜欢简洁的回复".toList begins_reply).2.2
    (.inl ⟨by decide +kernel, by decide +kernel⟩)

/-- Nothing follows the trigger, and its last word is remembered. -/
theorem detected_fails : ¬ ∀ (L : PhraseLower) (t : String) (w s X : List Char), Begins t w s X →
    detectSliced L.toLowercase (String.ofList (w ++ s ++ X)) = some (expected X) := by
  intro h
  have hthat := h asciiPhrases "remember that " "remember that ".toList [] [] {
    phrase := trigger_mem_phrases (by decide)
    spelled := by decide +kernel
    separators := fun c hc => absurd hc List.not_mem_nil
    rest := fun c hc => by cases hc
    longest := List.forall_iff_forall_mem.1 (by decide +kernel) }
  revert hthat
  decide +kernel

/-- With polite words of another trigger, a part of the phrase is remembered. -/
example : detectSliced asciiPhrases.toLowercase "帮我记住开会" = some (some "住开会") := by decide +kernel

end Remember

end OhMyClaw
