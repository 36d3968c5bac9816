import OhMyClaw.Lib.Find
import OhMyClaw.Lib.RustStr

/-!
# Skill files

A skill file is a frontmatter between two lines of dashes and the body behind it.  The split is by
substring: the frontmatter ends at the first `"\n---"`, and every repetition of that text is
trimmed off what follows.

`yaml` is the YAML parser, `fingerprint` the digest of a body.

    parseSkill_iff    which bodies are read back
-/

namespace OhMyClaw

structure Openclaw where
  os : List String
deriving DecidableEq, Repr

structure Metadata where
  openclaw : Option Openclaw
deriving DecidableEq, Repr

structure SkillFrontmatter where
  name : Option String
  description : Option String
  enabled : Option Bool
  metadata : Option Metadata
deriving DecidableEq, Repr

structure Skill where
  name : String
  slug : String
  description : String
  body : List Char
  fingerprint : String
  enabled : Bool
  os : List String
deriving DecidableEq, Repr

namespace Skill

def dashes : List Char := ['-', '-', '-']

def closing : List Char := '\n' :: dashes

/-- The frontmatter and the body of a text that starts with the dashes. -/
def extractFrontmatter (raw : List Char) : Option (List Char × List Char) := do
  let s ← RustStr.stripPrefix raw dashes
  let s := ((RustStr.stripPrefix s ['\n']).or (RustStr.stripPrefix s ['\r', '\n'])).getD s
  let (fm, rest) ← Find.cutAt closing s
  some (fm, Find.trimStartMatches ['\n'] (Find.trimStartMatches closing rest))

def parseSkill (yaml : List Char → Option SkillFrontmatter) (fingerprint : List Char → String)
    (slug leaf : String) (raw : List Char) : Option Skill :=
  if ¬ RustStr.startsWith raw dashes then
    let body := RustStr.trim raw
    some { name := leaf, slug, description := "", fingerprint := fingerprint body, body, enabled := true, os := [] }
  else do
    let (fmStr, rest) ← extractFrontmatter raw
    let fm ← yaml fmStr
    let body := RustStr.trim rest
    some {
      name := fm.name.getD leaf
      slug
      description := fm.description.getD ""
      fingerprint := fingerprint body
      body
      enabled := fm.enabled.getD true
      os := ((fm.metadata.bind (·.openclaw)).map (·.os)).getD [] }

/-! ## The file of a frontmatter and a body -/

/-- A line of dashes, the frontmatter, a line of dashes, the body. -/
def skillFile (frontmatter body : List Char) : List Char :=
  dashes ++ '\n' :: (frontmatter ++ '\n' :: (dashes ++ '\n' :: body))

def NoDashedLine (frontmatter : List Char) : Prop :=
  ∀ line ∈ frontmatter.splitOn '\n', ¬ dashes <+: line

instance (frontmatter : List Char) : Decidable (NoDashedLine frontmatter) :=
  inferInstanceAs (Decidable (∀ line ∈ frontmatter.splitOn '\n', ¬ dashes <+: line))

/-- A text that starts with the dashes has a line that does. -/
theorem dashed_line {s : List Char} (h : dashes <+: s) : ∃ line ∈ s.splitOn '\n', dashes <+: line := by
  obtain ⟨r, rfl⟩ := h
  show ∃ line ∈ (dashes ++ r).splitOnP (· == '\n'), _
  have hne := List.splitOnP_ne_nil (· == '\n') r
  obtain ⟨l, ls, hr⟩ := List.exists_cons_of_ne_nil hne
  refine ⟨dashes ++ l, ?_, List.prefix_append _ _⟩
  simp [dashes, List.splitOnP_cons_eq_if_modifyHead, hr]

/-- The frontmatter holds the closing text nowhere, and none begins in it. -/
theorem closing_clear {frontmatter : List Char} (h : NoDashedLine frontmatter) (rest : List Char) :
    Find.Clear closing frontmatter ('\n' :: rest) := by
  intro u v hsplit hv hclosing
  cases v with
  | nil => exact hv rfl
  | cons c v =>
    obtain ⟨rfl, hdashes⟩ : '\n' = c ∧ dashes <+: v ++ '\n' :: rest := List.cons_prefix_cons.1 hclosing
    -- the line behind this line feed ends in the frontmatter
    obtain ⟨line, hline, hdashed⟩ := dashed_line (Find.prefix_of_absent hdashes (by decide))
    refine h line ?_ hdashed
    rw [hsplit, List.splitOn_append_cons_self]
    exact List.mem_append_right _ hline

section

variable {yaml : List Char → Option SkillFrontmatter} {fingerprint : List Char → String} {slug leaf : String}
  {frontmatter body : List Char}

/-- What is taken for the body. -/
def bodyOf (body : List Char) : List Char :=
  RustStr.trim (Find.trimStartMatches ['\n'] (Find.trimStartMatches closing ('\n' :: body)))

theorem extractFrontmatter_skillFile (h : NoDashedLine frontmatter) (body : List Char) :
    extractFrontmatter (skillFile frontmatter body) =
      some (frontmatter,
        Find.trimStartMatches ['\n'] (Find.trimStartMatches closing ('\n' :: body))) := by
  have hcut : Find.cutAt closing (frontmatter ++ (closing ++ '\n' :: body)) =
      some (frontmatter, closing ++ '\n' :: body) :=
    (Find.cutAt_eq_some (by decide)).2 ⟨rfl, List.prefix_append _ _, closing_clear h _⟩
  have hfile : extractFrontmatter (skillFile frontmatter body) =
      (Find.cutAt closing (frontmatter ++ (closing ++ '\n' :: body))).bind fun r =>
        some (r.1, Find.trimStartMatches ['\n'] (Find.trimStartMatches closing r.2)) := rfl
  rw [hfile, hcut, Option.bind_some, Find.trimStartMatches_append (by decide)]

theorem parseSkill_skillFile (h : NoDashedLine frontmatter) {fm : SkillFrontmatter}
    (hyaml : yaml frontmatter = some fm) (body : List Char) :
    parseSkill yaml fingerprint slug leaf (skillFile frontmatter body) = some {
      name := fm.name.getD leaf
      slug
      description := fm.description.getD ""
      body := bodyOf body
      fingerprint := fingerprint (bodyOf body)
      enabled := fm.enabled.getD true
      os := ((fm.metadata.bind (·.openclaw)).map (·.os)).getD [] } := by
  have hstart : RustStr.startsWith (skillFile frontmatter body) dashes = true :=
    RustStr.startsWith_iff.2 (List.prefix_append _ _)
  rw [parseSkill, if_neg (not_not.2 hstart), extractFrontmatter_skillFile h]
  show (yaml frontmatter).bind _ = _
  rw [hyaml]
  rfl

theorem trimStart_newlines (s : List Char) :
    RustStr.trim (Find.trimStartMatches ['\n'] s) = RustStr.trim s := by
  induction s with
  | nil => rfl
  | cons c s ih =>
    by_cases hc : c = '\n'
    · subst hc
      exact (congrArg RustStr.trim (Find.trimStartMatches_append (by decide) s)).trans ih
    · rw [Find.trimStartMatches_of_not_prefix]
      intro hprefix
      exact hc (List.cons_prefix_cons.1 hprefix).1.symm

theorem bodyOf_plain (h : ¬ dashes <+: body) : bodyOf body = RustStr.trim body := by
  have hclosing : ¬ closing <+: '\n' :: body := fun hprefix => h (List.cons_prefix_cons.1 hprefix).2
  rw [bodyOf, trimStart_newlines, Find.trimStartMatches_of_not_prefix hclosing]
  rfl

/-- A body that starts with the dashes loses them. -/
theorem bodyOf_dashed (h : dashes <+: body) : (bodyOf body).length < (RustStr.trim body).length := by
  obtain ⟨rest, rfl⟩ := h
  have hrest : bodyOf (dashes ++ rest) = RustStr.trim (Find.trimStartMatches closing rest) :=
    (congrArg (fun s => RustStr.trim (Find.trimStartMatches ['\n'] s))
      (Find.trimStartMatches_append (by decide) rest)).trans (trimStart_newlines _)
  obtain ⟨z, hz⟩ := Find.trimStartMatches_suffix closing rest
  have hle : (RustStr.trim (Find.trimStartMatches closing rest)).length ≤ (RustStr.trim rest).length := by
    have := (RustStr.trim_suffix z (Find.trimStartMatches closing rest)).length_le
    rwa [hz] at this
  have hdash : RustStr.trim (dashes ++ rest) = RustStr.trimEnd (dashes ++ rest) := rfl
  have htrim : (RustStr.trim rest).length + 3 ≤ (RustStr.trim (dashes ++ rest)).length := by
    rw [hdash, RustStr.trimEnd_append]
    have hinner := (RustStr.trim_suffix_trimEnd rest).length_le
    split
    · next hnil =>
      rw [hnil, List.length_nil] at hinner
      have : (RustStr.trimEnd dashes).length = 3 := by decide
      omega
    · rw [List.length_append]
      have : dashes.length = 3 := rfl
      omega
  rw [hrest]
  omega

/-- The parsed skill has the fields of the frontmatter and the body up to the blanks around it
exactly when the body does not begin with the dashes. -/
theorem parseSkill_iff (h : NoDashedLine frontmatter) {fm : SkillFrontmatter}
    (hyaml : yaml frontmatter = some fm) :
    parseSkill yaml fingerprint slug leaf (skillFile frontmatter body) = some {
        name := fm.name.getD leaf
        slug
        description := fm.description.getD ""
        body := RustStr.trim body
        fingerprint := fingerprint (RustStr.trim body)
        enabled := fm.enabled.getD true
        os := ((fm.metadata.bind (·.openclaw)).map (·.os)).getD [] } ↔
      ¬ dashes <+: body := by
  rw [parseSkill_skillFile h hyaml]
  constructor
  · intro hsame hdashed
    have hbody : bodyOf body = RustStr.trim body := congrArg Skill.body (Option.some.inj hsame)
    have := bodyOf_dashed hdashed
    rw [hbody] at this
    exact absurd this (lt_irrefl _)
  · intro hplain
    rw [bodyOf_plain hplain]

end

/-- A name in the frontmatter, and a body with a list in it. -/
theorem parseSkill_iff_listed :
    parseSkill (fun _ => some ⟨some "todoist", none, none, none⟩) (fun _ => "") "@tools/todoist" "todoist"
        (skillFile "name: todoist".toList "- add\n---\n- done\n".toList) = some {
          name := "todoist"
          slug := "@tools/todoist"
          description := ""
          body := RustStr.trim "- add\n---\n- done\n".toList
          fingerprint := ""
          enabled := true
          os := [] } := by
  have hlines : NoDashedLine "name: todoist".toList := by decide
  have hbody : ¬ dashes <+: "- add\n---\n- done\n".toList := by decide
  exact (@parseSkill_iff (fun _ => some ⟨some "todoist", none, none, none⟩) (fun _ => "") "@tools/todoist"
    "todoist" _ _ hlines ⟨some "todoist", none, none, none⟩ rfl).2 hbody

/-- A rule at the head of the body is taken for another closing of the frontmatter. -/
theorem parseSkill_drops_rule :
    NoDashedLine "name: todoist".toList ∧
      (parseSkill (fun _ => some ⟨some "todoist", none, none, none⟩) (fun _ => "") "@tools/todoist" "todoist"
        (skillFile "name: todoist".toList "---\ntext".toList)).map (·.body) = some "text".toList ∧
      RustStr.trim "---\ntext".toList = "---\ntext".toList := by
  refine ⟨by decide, by decide, by decide⟩

end Skill

end OhMyClaw
