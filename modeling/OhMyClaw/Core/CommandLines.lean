import OhMyClaw.Core.Tool
import OhMyClaw.Lib.Stretch

/-!
# Command lines that run a command

The risk of a command is judged by the text of the line it stands in.  Some texts are looked for
anywhere in the line, others only at its start; and a text with a blank in it is looked for with
that one blank.  A shell minds neither what stands ahead of a command nor how wide its blanks are.

    alsoRuns_iff      when every line that also runs a command is judged as risky as it
    alsoRuns_fails    a command that is let through behind another
-/

namespace OhMyClaw

namespace CommandLine

/-! ## What a shell does not mind -/

/-- Where a shell stands in a line. -/
inductive Quoting where
  | plain | escaped | single | double | doubleEscaped
deriving DecidableEq, Repr

def Quoting.next : Quoting → Char → Quoting
  | .plain, c =>
    if c = '\\' then .escaped else if c = '\'' then .single else if c = '"' then .double else .plain
  | .escaped, _ => .plain
  | .single, c => if c = '\'' then .plain else .single
  | .double, c => if c = '"' then .plain else if c = '\\' then .doubleEscaped else .double
  | .doubleEscaped, _ => .double

/-- The characters of a line, the unquoted blanks marked. -/
def marks : Quoting → List Char → List (Char × Bool)
  | _, [] => []
  | q, c :: s => (c, q = .plain ∧ (c = ' ' ∨ c = '\t')) :: marks (q.next c) s

def separators : List (List Char) := [[';'], ['&', '&'], ['\n']]

/-- The line runs `c`: it stands behind another command or ahead of one, or its unquoted blanks are
wider. -/
inductive AlsoRuns (c : List Char) : List Char → Prop where
  | behind (x : List Char) {sep : List Char} (hsep : sep ∈ separators) : AlsoRuns c (x ++ sep ++ c)
  | ahead (x : List Char) {sep : List Char} (hsep : sep ∈ separators) : AlsoRuns c (c ++ sep ++ x)
  | widened {line : List Char} (h : Stretch.Stretches 0 (marks .plain c) line) : AlsoRuns c line

/-- The command with every unquoted blank doubled. -/
def doubled (c : List Char) : List Char := Stretch.double (marks .plain c)

/-! ## What is looked for -/

def fetchTexts : List String := ["curl", "wget", "iwr", "invoke-webrequest"]

def shellTexts : List String := ["| sh", "|sh", "| bash", "|bash", "iex", "invoke-expression"]

def redirects : List String := [" > ", ">>"]

def writeWords : List String := ["rm ", "del ", "mv ", "move ", "cp ", "copy "]

def privilegeWords : List String := ["sudo ", "su ", "runas"]

def holds (line : List Char) (texts : List String) : Bool :=
  texts.any fun p => RustStr.contains line p.toList

def begins (line : List Char) (texts : List String) : Bool :=
  texts.any fun p => RustStr.startsWith line p.toList

/-- Something that is looked for anywhere is in the line. -/
def anywhere (line : List Char) : Bool :=
  holds line fetchTexts && holds line shellTexts || holds line dangerSubstrings ||
    holds line redirects && holds line systemPaths

/-- Something that is looked for at the start is there. -/
def atStart (line : List Char) : Bool :=
  begins line writeWords && holds line systemPaths || begins line privilegeWords

/-- A write is told by its word at the start or by a redirection anywhere. -/
theorem begins_or_holds (line : List Char) :
    (RustStr.startsWith line "rm ".toList || RustStr.startsWith line "del ".toList ||
      RustStr.contains line " > ".toList || RustStr.contains line ">>".toList ||
      RustStr.startsWith line "mv ".toList || RustStr.startsWith line "move ".toList ||
      RustStr.startsWith line "cp ".toList || RustStr.startsWith line "copy ".toList) =
    (begins line writeWords || holds line redirects) := by
  simp only [begins, holds, writeWords, redirects, List.any_cons, List.any_nil, Bool.or_false]
  ac_rfl

theorem classifyCommand_eq_safe {toLowercase : List Char → List Char} {cmd : String} :
    classifyCommand toLowercase cmd = .safe ↔
      anywhere (toLowercase (RustStr.trim cmd.toList)) = false ∧
        atStart (toLowercase (RustStr.trim cmd.toList)) = false := by
  unfold classifyCommand
  generalize toLowercase (RustStr.trim cmd.toList) = line
  have hfetch : (RustStr.contains line "curl".toList || RustStr.contains line "wget".toList ||
      RustStr.contains line "iwr".toList || RustStr.contains line "invoke-webrequest".toList) =
      holds line fetchTexts := by
    simp only [holds, fetchTexts, List.any_cons, List.any_nil, Bool.or_false, Bool.or_assoc]
  have hshell : (RustStr.contains line "| sh".toList || RustStr.contains line "|sh".toList ||
      RustStr.contains line "| bash".toList || RustStr.contains line "|bash".toList ||
      RustStr.contains line "iex".toList || RustStr.contains line "invoke-expression".toList) =
      holds line shellTexts := by
    simp only [holds, shellTexts, List.any_cons, List.any_nil, Bool.or_false, Bool.or_assoc]
  have hprivilege : (RustStr.startsWith line "sudo ".toList || RustStr.startsWith line "su ".toList ||
      RustStr.startsWith line "runas".toList) = begins line privilegeWords := by
    simp only [begins, privilegeWords, List.any_cons, List.any_nil, Bool.or_false, Bool.or_assoc]
  have hdanger : (dangerSubstrings.any fun p => RustStr.contains line p.toList) =
      holds line dangerSubstrings := rfl
  have hsystem : (systemPaths.any fun p => RustStr.contains line p.toList) = holds line systemPaths := rfl
  simp only [hfetch, hshell, hprivilege, hdanger, hsystem, begins_or_holds, anywhere, atStart]
  generalize (holds line fetchTexts && holds line shellTexts) = fetches
  cases fetches with
  | true => simp
  | false =>
    cases holds line dangerSubstrings with
    | true => simp
    | false =>
      cases begins line privilegeWords <;> cases holds line systemPaths <;>
        cases begins line writeWords <;> cases holds line redirects <;> simp

/-! ## Lower case -/

/-- The two lower-case forms of a sigma are one. -/
def sigma (c : Char) : Char := if c = 'ς' then 'σ' else c

/-- Lower case goes character by character, but for the form of a sigma, which depends on what is
around it.  Letters of ASCII have the lower case they have in Lean, and blanks have none. -/
structure LowerCase where
  toLowercase : List Char → List Char
  lower : Char → List Char
  toLowercase_sigma : ∀ s, (toLowercase s).map sigma = s.flatMap lower
  lower_ascii : ∀ c : Char, c.toNat < 0x80 → lower c = [c.toLower]
  lower_whitespace : ∀ c, RustStr.isWhitespace c = true → lower c = [c]

/-- All that is looked for anywhere. -/
def lineTexts : List String := fetchTexts ++ shellTexts ++ dangerSubstrings ++ redirects ++ systemPaths

/-- All that is looked for at the start. -/
def startTexts : List String := writeWords ++ privilegeWords

theorem texts_plain :
    (lineTexts ++ startTexts).all (fun p => p.toList ≠ [] && p.toList.all (·.toNat < 0x80) &&
      !RustStr.contains p.toList [' ', ' '] && !RustStr.contains p.toList ['\t', '\t']) = true := by
  decide +kernel

/-- Of the texts that are looked for anywhere, only a redirection starts with a blank. -/
theorem lineTexts_heads :
    lineTexts.all (fun p => p.toList.head?.all fun c => c ≠ 'a' && c ≠ ';' &&
      (!RustStr.isWhitespace c || p = " > ")) = true := by
  decide +kernel

theorem startTexts_heads :
    startTexts.all (fun p => p.toList.head?.any fun c => c ≠ 'a' && c ≠ '>') = true := by
  decide +kernel

theorem plain_of_mem {p : String} (hp : p ∈ lineTexts ∨ p ∈ startTexts) :
    p.toList ≠ [] ∧ 'σ' ∉ p.toList ∧ 'ς' ∉ p.toList ∧ ¬ [' ', ' '] <:+: p.toList ∧
      ¬ ['\t', '\t'] <:+: p.toList := by
  have hplain := List.all_eq_true.1 texts_plain p (List.mem_append.2 hp)
  simp only [Bool.and_eq_true, Bool.not_eq_true', ← Bool.not_eq_true, RustStr.contains_iff,
    decide_eq_true_eq, List.all_eq_true] at hplain
  obtain ⟨⟨⟨hne, hascii⟩, hspace⟩, htab⟩ := hplain
  exact ⟨hne, fun h => absurd (hascii _ h) (by decide), fun h => absurd (hascii _ h) (by decide), hspace, htab⟩

variable {L : LowerCase}

theorem map_sigma_eq {p l : List Char} (hp : 'σ' ∉ p) (h : l.map sigma = p) : l = p := by
  subst h
  refine (List.map_id' l).symm.trans (List.map_congr_left ?_)
  intro c hc
  have hne : sigma c ≠ 'σ' := fun heq => hp (heq ▸ List.mem_map_of_mem hc)
  unfold sigma at hne ⊢
  split at hne
  · exact absurd rfl hne
  · next hfinal => rw [if_neg hfinal]

theorem map_sigma_self {p : List Char} (hp : 'ς' ∉ p) : p.map sigma = p := by
  refine (List.map_congr_left ?_).trans (List.map_id' p)
  intro c hc
  have hne : c ≠ 'ς' := fun heq => hp (heq ▸ hc)
  simp [sigma, hne]

/-- What is looked for has no sigma in it, so their form makes no difference. -/
theorem infix_toLowercase {p s : List Char} (hsigma : 'σ' ∉ p) (hfinal : 'ς' ∉ p) :
    p <:+: L.toLowercase s ↔ p <:+: s.flatMap L.lower := by
  rw [← L.toLowercase_sigma]
  constructor
  · intro h
    have hmap := h.map sigma
    rwa [map_sigma_self hfinal] at hmap
  · intro h
    obtain ⟨l, hl, heq⟩ := List.infix_map_iff.1 h
    rwa [map_sigma_eq hsigma heq.symm] at hl

theorem prefix_toLowercase {p s : List Char} (hsigma : 'σ' ∉ p) (hfinal : 'ς' ∉ p) :
    p <+: L.toLowercase s ↔ p <+: s.flatMap L.lower := by
  rw [← L.toLowercase_sigma]
  constructor
  · intro h
    have hmap := h.map sigma
    rwa [map_sigma_self hfinal] at hmap
  · intro h
    obtain ⟨l, hl, heq⟩ := List.prefix_map_iff.1 h
    rwa [map_sigma_eq hsigma heq.symm] at hl

/-! ## What is found in one line and so in another -/

theorem holds_mono {line line' : List Char} {texts : List String}
    (h : ∀ p ∈ texts, p.toList <:+: line → p.toList <:+: line') (hl : holds line texts = true) :
    holds line' texts = true := by
  obtain ⟨p, hp, hcontains⟩ := List.any_eq_true.1 hl
  exact List.any_eq_true.2 ⟨p, hp, RustStr.contains_iff.2 (h p hp (RustStr.contains_iff.1 hcontains))⟩

theorem begins_mono {line line' : List Char} {texts : List String}
    (h : ∀ p ∈ texts, p.toList <+: line → p.toList <+: line') (hl : begins line texts = true) :
    begins line' texts = true := by
  obtain ⟨p, hp, hstarts⟩ := List.any_eq_true.1 hl
  exact List.any_eq_true.2 ⟨p, hp, RustStr.startsWith_iff.2 (h p hp (RustStr.startsWith_iff.1 hstarts))⟩

theorem anywhere_mono {line line' : List Char}
    (h : ∀ p ∈ lineTexts, p.toList <:+: line → p.toList <:+: line') (hl : anywhere line = true) :
    anywhere line' = true := by
  have hmono {texts : List String} (hsub : ∀ p ∈ texts, p ∈ lineTexts) (hholds : holds line texts = true) :
      holds line' texts = true := holds_mono (fun p hp => h p (hsub p hp)) hholds
  unfold anywhere at hl ⊢
  simp only [Bool.or_eq_true, Bool.and_eq_true] at hl ⊢
  rcases hl with (⟨hfetch, hshell⟩ | hdanger) | ⟨hredirect, hsystem⟩
  · exact Or.inl (Or.inl ⟨hmono (fun p hp => by simp [lineTexts, hp]) hfetch,
      hmono (fun p hp => by simp [lineTexts, hp]) hshell⟩)
  · exact Or.inl (Or.inr (hmono (fun p hp => by simp [lineTexts, hp]) hdanger))
  · exact Or.inr ⟨hmono (fun p hp => by simp [lineTexts, hp]) hredirect,
      hmono (fun p hp => by simp [lineTexts, hp]) hsystem⟩

theorem atStart_mono {line line' : List Char}
    (hstart : ∀ p ∈ startTexts, p.toList <+: line → p.toList <+: line')
    (h : ∀ p ∈ lineTexts, p.toList <:+: line → p.toList <:+: line') (hl : atStart line = true) :
    atStart line' = true := by
  unfold atStart at hl ⊢
  simp only [Bool.or_eq_true, Bool.and_eq_true] at hl ⊢
  rcases hl with ⟨hl, hpath⟩ | hl
  · exact Or.inl ⟨begins_mono (fun p hp => hstart p (by simp [startTexts, hp])) hl,
      holds_mono (fun p hp => h p (by simp [lineTexts, hp])) hpath⟩
  · exact Or.inr (begins_mono (fun p hp => hstart p (by simp [startTexts, hp])) hl)

/-- What a line is judged by, sigmas made one. -/
def LowerCase.text (L : LowerCase) (line : List Char) : List Char := (RustStr.trim line).flatMap L.lower

/-- Something that is looked for is in the line. -/
def Risky (L : LowerCase) (line : List Char) : Prop :=
  anywhere (L.text line) = true ∨ atStart (L.text line) = true

theorem anywhere_text {line : List Char} :
    anywhere (L.toLowercase (RustStr.trim line)) = anywhere (L.text line) := by
  have hiff (p : String) (hp : p ∈ lineTexts) :
      p.toList <:+: L.toLowercase (RustStr.trim line) ↔ p.toList <:+: L.text line := by
    obtain ⟨-, hsigma, hfinal, -⟩ := plain_of_mem (Or.inl hp)
    exact infix_toLowercase hsigma hfinal
  rw [Bool.eq_iff_iff]
  exact ⟨anywhere_mono fun p hp => (hiff p hp).1, anywhere_mono fun p hp => (hiff p hp).2⟩

theorem atStart_text {line : List Char} :
    atStart (L.toLowercase (RustStr.trim line)) = atStart (L.text line) := by
  have hcontained (p : String) (hp : p ∈ lineTexts) :
      p.toList <:+: L.toLowercase (RustStr.trim line) ↔ p.toList <:+: L.text line := by
    obtain ⟨-, hsigma, hfinal, -⟩ := plain_of_mem (Or.inl hp)
    exact infix_toLowercase hsigma hfinal
  have hstart (p : String) (hp : p ∈ startTexts) :
      p.toList <+: L.toLowercase (RustStr.trim line) ↔ p.toList <+: L.text line := by
    obtain ⟨-, hsigma, hfinal, -⟩ := plain_of_mem (Or.inr hp)
    exact prefix_toLowercase hsigma hfinal
  rw [Bool.eq_iff_iff]
  exact ⟨atStart_mono (fun p hp => (hstart p hp).1) fun p hp => (hcontained p hp).1,
    atStart_mono (fun p hp => (hstart p hp).2) fun p hp => (hcontained p hp).2⟩

theorem classify_ne_safe {cmd : String} :
    classifyCommand L.toLowercase cmd ≠ .safe ↔ Risky L cmd.toList := by
  rw [ne_eq, classifyCommand_eq_safe, anywhere_text, atStart_text, Risky]
  cases anywhere (L.text cmd.toList) <;> cases atStart (L.text cmd.toList) <;> simp

/-! ## Ahead and behind -/

theorem risky_ahead {c : List Char} (h : Risky L c) (rest : List Char) : Risky L (c ++ rest) := by
  have htext : L.text c <+: L.text (c ++ rest) := (RustStr.trim_prefix c rest).flatMap L.lower
  rcases h with h | h
  · exact Or.inl (anywhere_mono (fun p _ hp => hp.trans htext.isInfix) h)
  · exact Or.inr (atStart_mono (fun p _ hp => hp.trans htext) (fun p _ hp => hp.trans htext.isInfix) h)

theorem anywhere_behind {c : List Char} (h : anywhere (L.text c) = true) (front : List Char) :
    anywhere (L.text (front ++ c)) = true := by
  have htrim := (RustStr.trim_suffix front c).isInfix
  exact anywhere_mono (fun p _ hp => hp.trans (htrim.flatMap L.lower)) h

/-- A text that can neither start in `w` nor end in it is found behind `w`. -/
theorem infix_behind {p w u : List Char}
    (h : (∃ x r, p = x :: r ∧ x ∉ w) ∨ ∃ x y r, p = x :: y :: r ∧ y ∉ w ∧ u.head? ≠ some y)
    (hp : p <:+: w ++ u) : p <:+: u := by
  induction w with
  | nil => exact hp
  | cons c w ih =>
    rcases List.infix_cons_iff.1 hp with hstart | hrest
    · exfalso
      rcases h with ⟨x, r, rfl, hx⟩ | ⟨x, y, r, rfl, hy, hu⟩
      · exact hx ((List.cons_prefix_cons.1 hstart).1 ▸ List.mem_cons_self)
      · have hnext := (List.cons_prefix_cons.1 hstart).2
        cases w with
        | nil =>
          obtain ⟨t, ht⟩ := hnext
          have hu' : u = y :: (r ++ t) := ht.symm
          exact hu (by rw [hu']; rfl)
        | cons d w => exact hy ((List.cons_prefix_cons.1 hnext).1 ▸ by simp)
    · refine ih ?_ hrest
      rcases h with ⟨x, r, hp, hx⟩ | ⟨x, y, r, hp, hy, hu⟩
      · exact Or.inl ⟨x, r, hp, fun hmem => hx (List.mem_cons_of_mem _ hmem)⟩
      · exact Or.inr ⟨x, y, r, hp, fun hmem => hy (List.mem_cons_of_mem _ hmem), hu⟩

theorem begins_head {line : List Char} {texts : List String} (hsub : ∀ p ∈ texts, p ∈ startTexts)
    (h : begins line texts = true) : ∃ c, line.head? = some c ∧ c ≠ 'a' ∧ c ≠ '>' := by
  obtain ⟨p, hp, hstarts⟩ := List.any_eq_true.1 h
  have hhead := List.all_eq_true.1 startTexts_heads p (hsub p hp)
  obtain ⟨t, ht⟩ := RustStr.startsWith_iff.1 hstarts
  cases hchars : p.toList with
  | nil => simp [hchars] at hhead
  | cons c r =>
    simp only [hchars, List.head?_cons, Option.any_some, Bool.and_eq_true, decide_eq_true_eq] at hhead
    rw [hchars, List.cons_append] at ht
    exact ⟨c, by rw [← ht]; rfl, hhead.1, hhead.2⟩

theorem atStart_head {line : List Char} (h : atStart line = true) :
    ∃ c, line.head? = some c ∧ c ≠ 'a' ∧ c ≠ '>' := by
  unfold atStart at h
  simp only [Bool.or_eq_true, Bool.and_eq_true] at h
  rcases h with ⟨h, -⟩ | h
  · exact begins_head (fun p hp => by simp [startTexts, hp]) h
  · exact begins_head (fun p hp => by simp [startTexts, hp]) h

theorem not_blank {c : List Char} (h : Risky L c) : RustStr.trim c ≠ [] := by
  intro hnil
  have htext : L.text c = [] := by rw [LowerCase.text, hnil]; rfl
  have hanywhere : anywhere [] = false := by decide +kernel
  have hstart : atStart [] = false := by decide +kernel
  rw [Risky, htext, hanywhere, hstart] at h
  simp at h

/-- Behind the shortest of commands stands the command as it is judged alone, with the blanks
ahead of it. -/
theorem text_behind {c : List Char} (hc : RustStr.trim c ≠ []) :
    ∃ blanks, (∀ b ∈ blanks, RustStr.isWhitespace b = true) ∧
      L.text (['a'] ++ [';'] ++ c) = ('a' :: ';' :: blanks) ++ L.text c := by
  have hblanks : ∀ b ∈ c.takeWhile RustStr.isWhitespace, RustStr.isWhitespace b = true :=
    fun b hb => List.mem_takeWhile_imp hb
  have hc' : RustStr.trimEnd (RustStr.trimStart c) ≠ [] := hc
  have hend : RustStr.trimEnd c = c.takeWhile RustStr.isWhitespace ++ RustStr.trim c := by
    conv_lhs => rw [← RustStr.takeWhile_append_trimStart c]
    rw [RustStr.trimEnd_append, if_neg hc']
    rfl
  have hne : RustStr.trimEnd c ≠ [] := by
    rw [hend]
    simp [hc]
  have hstart : RustStr.trimStart (['a'] ++ [';'] ++ c) = ['a'] ++ [';'] ++ c := rfl
  have htrim : RustStr.trim (['a'] ++ [';'] ++ c) =
      'a' :: ';' :: (c.takeWhile RustStr.isWhitespace ++ RustStr.trim c) := by
    rw [RustStr.trim, hstart, RustStr.trimEnd_append, if_neg hne, hend]
    rfl
  have hlower : ∀ bs : List Char, (∀ b ∈ bs, RustStr.isWhitespace b = true) → bs.flatMap L.lower = bs := by
    intro bs
    induction bs with
    | nil => intro _; rfl
    | cons b bs ih =>
      intro h
      rw [List.flatMap_cons, L.lower_whitespace b (h b List.mem_cons_self),
        ih fun x hx => h x (List.mem_cons_of_mem _ hx), List.singleton_append]
  refine ⟨c.takeWhile RustStr.isWhitespace, hblanks, ?_⟩
  have ha : L.lower 'a' = ['a'] := L.lower_ascii 'a' (by decide)
  have hsemicolon : L.lower ';' = [';'] := L.lower_ascii ';' (by decide)
  rw [LowerCase.text, htrim, List.flatMap_cons, List.flatMap_cons, List.flatMap_append, hlower _ hblanks, ha,
    hsemicolon]
  simp [LowerCase.text]

/-- Behind the shortest of commands, only what is looked for anywhere is found. -/
theorem anywhere_of_behind {c : List Char} (hc : Risky L c) (h : Risky L (['a'] ++ [';'] ++ c)) :
    anywhere (L.text c) = true := by
  obtain ⟨blanks, hblanks, htext⟩ := text_behind (L := L) (not_blank hc)
  rcases hc with hc | hc
  · exact hc
  obtain ⟨first, hfirst, -, hredirect⟩ := atStart_head hc
  rw [Risky, htext] at h
  rcases h with h | h
  · refine anywhere_mono (fun p hp => ?_) h
    obtain ⟨hne, -⟩ := plain_of_mem (Or.inl hp)
    obtain ⟨x, r, hchars⟩ := List.exists_cons_of_ne_nil hne
    have hhead := List.all_eq_true.1 lineTexts_heads p hp
    simp only [hchars, List.head?_cons, Option.all_some, Bool.and_eq_true, Bool.or_eq_true,
      decide_eq_true_eq, Bool.not_eq_true'] at hhead
    obtain ⟨⟨ha, hsemicolon⟩, hblank⟩ := hhead
    refine infix_behind ?_
    rcases hblank with hblank | rfl
    · refine Or.inl ⟨x, r, hchars, ?_⟩
      simp only [List.mem_cons, not_or]
      exact ⟨ha, hsemicolon, fun hmem => by simp [hblanks x hmem] at hblank⟩
    · refine Or.inr ⟨' ', '>', [' '], rfl, ?_, ?_⟩
      · simp only [List.mem_cons, not_or]
        exact ⟨by decide, by decide, fun hmem => absurd (hblanks _ hmem) (by decide)⟩
      · rw [hfirst]
        simpa using hredirect
  · obtain ⟨c', hc', ha, -⟩ := atStart_head h
    exact absurd (Option.some.inj hc').symm ha

/-! ## Wider blanks -/

theorem marks_blank {q : Quoting} {c : List Char} : ∀ u ∈ marks q c, u.2 = true → u.1 = ' ' ∨ u.1 = '\t' := by
  induction c generalizing q with
  | nil => simp [marks]
  | cons d c ih =>
    intro u hu hmarked
    rcases List.mem_cons.1 hu with rfl | hu
    · exact (of_decide_eq_true hmarked).2
    · exact ih u hu hmarked

/-- What is looked for in the command with every blank doubled is found however wide they are. -/
theorem risky_widened {c line : List Char} (hline : Stretch.Stretches 0 (marks .plain c) line)
    (h : Risky L (doubled c)) : Risky L line := by
  have hdouble := ((Stretch.stretches_double (marks .plain c)).dropWhile RustStr.isWhitespace).rdropWhile
    RustStr.isWhitespace
  have htrim := (hline.dropWhile RustStr.isWhitespace).rdropWhile RustStr.isWhitespace
  have hblank (p : String) (hp : p ∈ lineTexts ∨ p ∈ startTexts) :
      ∀ u ∈ ((marks .plain c).dropWhile fun u => RustStr.isWhitespace u.1).rdropWhile
          (fun u => RustStr.isWhitespace u.1),
        u.2 = true → ∃ y, L.lower u.1 = [y] ∧ ¬ [y, y] <:+: p.toList := by
    intro u hu hmarked
    obtain ⟨-, -, -, hspace, htab⟩ := plain_of_mem hp
    have hmem : u ∈ marks .plain c :=
      (List.dropWhile_sublist _).subset ((List.rdropWhile_prefix _ _).subset hu)
    rcases marks_blank u hmem hmarked with hu | hu
    · exact ⟨' ', by rw [hu]; exact L.lower_ascii ' ' (by decide), hspace⟩
    · exact ⟨'\t', by rw [hu]; exact L.lower_ascii '\t' (by decide), htab⟩
  have hcontained (p : String) (hp : p ∈ lineTexts) (hfound : p.toList <:+: L.text (doubled c)) :
      p.toList <:+: L.text line :=
    Stretch.infix_of_stretches (hblank p (Or.inl hp)) hdouble htrim [] hfound
  rcases h with h | h
  · exact Or.inl (anywhere_mono hcontained h)
  · refine Or.inr (atStart_mono (fun p hp hfound => ?_) hcontained h)
    exact Stretch.prefix_of_stretches (hblank p (Or.inr hp)) hdouble htrim [] hfound

/-! ## The lines that run a command -/

/-- No line that also runs a risky command is let through, exactly if something that is looked for
anywhere is in the command, and something is still found in it when its unquoted blanks are
doubled. -/
theorem alsoRuns_iff {c : String} (hc : classifyCommand L.toLowercase c ≠ .safe) :
    (∀ line : String, AlsoRuns c.toList line.toList → classifyCommand L.toLowercase line ≠ .safe) ↔
      anywhere (L.toLowercase (RustStr.trim c.toList)) = true ∧
        (anywhere (L.toLowercase (RustStr.trim (doubled c.toList))) = true ∨
          atStart (L.toLowercase (RustStr.trim (doubled c.toList))) = true) := by
  rw [anywhere_text, anywhere_text, atStart_text]
  rw [classify_ne_safe] at hc
  simp only [classify_ne_safe]
  constructor
  · intro h
    refine ⟨?_, ?_⟩
    · have hbehind := h (String.ofList (['a'] ++ [';'] ++ c.toList))
        (by rw [String.toList_ofList]; exact .behind ['a'] (by simp [separators]))
      rw [String.toList_ofList] at hbehind
      exact anywhere_of_behind hc hbehind
    · have hwide := h (String.ofList (doubled c.toList))
        (by rw [String.toList_ofList]; exact .widened (Stretch.stretches_double _).zero)
      rwa [String.toList_ofList] at hwide
  · rintro ⟨hanywhere, hwide⟩ line hline
    generalize line.toList = l at hline ⊢
    cases hline with
    | behind x hsep => exact Or.inl (anywhere_behind hanywhere _)
    | ahead x hsep =>
      rw [List.append_assoc]
      exact risky_ahead hc _
    | widened h => exact risky_widened h hwide

/-- Lower case of ASCII; the two sigmas stay. -/
def asciiLower : LowerCase where
  toLowercase := List.map Char.toLower
  lower c := [sigma c.toLower]
  toLowercase_sigma s := by
    rw [List.map_map, ← List.map_eq_flatMap]
    rfl
  lower_ascii c hc := by
    have hall : ∀ n < 0x80, sigma (Char.ofNat n).toLower = (Char.ofNat n).toLower := by decide +kernel
    have hofNat := hall c.toNat hc
    rw [Char.ofNat_toNat] at hofNat
    rw [hofNat]
  lower_whitespace c hc := by
    have hletter : ¬ (c.val ≥ 'A'.val ∧ c.val ≤ 'Z'.val) := by
      rintro ⟨hge, hle⟩
      have hge' : 65 ≤ c.toNat := UInt32.le_iff_toNat_le.1 hge
      have hle' : c.toNat ≤ 90 := UInt32.le_iff_toNat_le.1 hle
      simp only [RustStr.isWhitespace, Bool.or_eq_true, decide_eq_true_eq] at hc
      omega
    have hsigma : c ≠ 'ς' := by
      rintro rfl
      exact absurd hc (by decide)
    have hlower : c.toLower = c := dif_neg hletter
    rw [hlower, sigma, if_neg hsigma]

/-- A shutdown is found behind other commands, and is one word. -/
theorem alsoRuns_shutdown : classifyCommand asciiLower.toLowercase "cd /;shutdown  now" ≠ .safe := by
  have hline : "cd /;shutdown  now".toList = "cd /".toList ++ [';'] ++ "shutdown  now".toList := by
    decide +kernel
  have hruns : AlsoRuns "shutdown  now".toList "cd /;shutdown  now".toList := by
    rw [hline]
    exact .behind _ (by simp [separators])
  exact (alsoRuns_iff (by decide +kernel)).2 (by decide +kernel) _ hruns

/-- A command as another user needs approval, but not behind another command. -/
theorem alsoRuns_fails :
    ¬ ∀ (L : LowerCase) (c line : String), classifyCommand L.toLowercase c ≠ .safe →
      AlsoRuns c.toList line.toList → classifyCommand L.toLowercase line ≠ .safe := by
  intro h
  have hruns : AlsoRuns "sudo ls".toList "cd /;sudo ls".toList := by
    have hline : "cd /;sudo ls".toList = "cd /".toList ++ [';'] ++ "sudo ls".toList := by decide +kernel
    rw [hline]
    exact .behind _ (by simp [separators])
  exact h asciiLower "sudo ls" "cd /;sudo ls" (by decide +kernel) hruns (by decide +kernel)

end CommandLine

end OhMyClaw
