import OhMyClaw.Lib.Posix
import OhMyClaw.Lib.RustStr

/-!
# The roots of the file tool

The file tool resolves a path and compares what comes out with its roots, and then hands it to the
system, which resolves it again.  A path that resolves is checked as the place it leads to.  For one
that does not, the parent is resolved and the last name put behind it as it is.

    confined_iff      when an operation stays within the roots
    confined_fails    a write through a link to a file that is not there yet

Permissions are left out; they only take away from what an operation reaches.
-/

namespace OhMyClaw.PathGuard

open Posix

inductive PathError where
  | notAllowed (p : Path)
  | io
deriving DecidableEq, Repr

/-- Expand a `~` at the start; `home` is the user's directory, if it can be told. -/
def expandHome (home : Option (List Char)) (path : List Char) : List Char :=
  match home with
  | none => path
  | some home =>
    if path = ['~'] then home
    else
      match RustStr.stripPrefix path ['~', '/'] with
      | some rest => home ++ '/' :: rest
      | none =>
        match RustStr.stripPrefix path ['~', '\\'] with
        | some rest => home ++ '\\' :: rest
        | none => path

def canonicalize (h : Host) (p : Path) : Option Path := (h.resolve? p).map .ofLoc

/-- A root that cannot be canonicalised is taken as it is written. -/
def rootCanon (h : Host) (root : Path) : Path := (canonicalize h root).getD root

def absolutize (path cwd : Path) : Path := if path.absolute then path else cwd.join path

/-- What is checked against the roots. -/
def candidate (h : Host) (abs : Path) : Except PathError Path :=
  if (h.resolve? abs).isSome then
    match canonicalize h abs with
    | some p => .ok p
    | none => .error .io
  else
    match abs.parent? with
    | none => .error (.notAllowed abs)
    | some parent =>
      if parent = .empty then .ok abs
      else if (h.resolve? parent).isSome then
        match canonicalize h parent with
        | some p =>
          .ok (p.join { absolute := false, segs := abs.fileName?.toList.map .name })
        | none => .error .io
      else .error (.notAllowed abs)

def allowed (h : Host) (roots : List Path) (p : Path) : Bool :=
  roots.any fun root => p.startsWith (rootCanon h root)

/-- Resolve a path and check it against the roots; without roots everything is allowed. -/
def resolveInRoots (h : Host) (path cwd : Path) (roots : List Path) : Except PathError Path :=
  match candidate h (absolutize path cwd) with
  | .error e => .error e
  | .ok p =>
    if roots.isEmpty then .ok p
    else if allowed h roots p then .ok p
    else .error (.notAllowed p)

namespace FileTool

inductive Op where
  | read | write | edit | append
deriving DecidableEq, Repr

def Op.creates : Op → Bool
  | .read => false
  | .edit => false
  | .write => true
  | .append => true

def check (h : Host) (home : Option (List Char)) (roots : List Path) (cwd : Path) (path : List Char) :
    Except PathError Path :=
  resolveInRoots h (.ofChars (expandHome home path)) cwd roots

/-- The object that an operation opens, or creates if there is none. -/
def Op.opens (op : Op) (h : Host) (p : Path) : List Loc :=
  if op.creates then h.openCreate p else h.openRead p

/-- All objects that an operation opens or creates: `write` and `append` make the directories above
the file first, and `edit` writes what it has read. -/
def Op.touches (op : Op) (h : Host) (p : Path) : List Loc :=
  if op.creates then
    match p.parent? with
    | none => h.openCreate p
    | some parent =>
      let c := createDirAll (parent.segs.length + 1) h parent
      if c.ok then c.made ++ c.host.openCreate p else c.made
  else h.openRead p

end FileTool

/-- The place lies in one of the canonical roots. -/
def Inside (h : Host) (roots : List Path) (loc : Loc) : Prop :=
  allowed h roots (.ofLoc loc) = true

/-- Whatever an operation opens or creates, once its path is let through, lies in the roots. -/
def Confined (h : Host) (home : Option (List Char)) (roots : List Path) (cwd : Path) (op : FileTool.Op)
    (path : List Char) : Prop :=
  ∀ p, FileTool.check h home roots cwd path = .ok p → ∀ loc ∈ op.touches h p, Inside h roots loc

/-- The path that is checked for `abs` is not where `abs` leads: its last name is a link in the
parent's place, or it is a lone name, which has no parent. -/
inductive Unfollowed (h : Host) (abs : Path) : Path → Prop where
  | link {parent : Path} {dir : Loc} {n : String} {target : Path} (hparent : abs.parent? = some parent)
      (hne : parent ≠ .empty) (hdir : h.resolve? parent = some dir) (hname : abs.fileName? = some n)
      (hlink : h.tree.find (dir ++ [n]) = some (.link target)) : Unfollowed h abs (.ofLoc (dir ++ [n]))
  | lone (hparent : abs.parent? = some .empty) : Unfollowed h abs abs

/-- The path does not resolve, and the link that stands for it, itself within the roots, leads the
operation out of them. -/
def Escapes (h : Host) (roots : List Path) (op : FileTool.Op) (abs : Path) : Prop :=
  h.resolve? abs = none ∧ ∃ p, Unfollowed h abs p ∧ allowed h roots p = true ∧
    ∃ loc ∈ op.opens h p, ¬ Inside h roots loc

variable {h : Host} {abs p : Path} {loc dir : Loc} {n : String} {op : FileTool.Op}

/-! ## What is checked -/

theorem join_name (dir : Loc) (n : String) :
    (Path.ofLoc dir).join { absolute := false, segs := [.name n] } = .ofLoc (dir ++ [n]) := by
  simp [Path.join, Path.ofLoc]

/-- The place with a slash behind it. -/
def withSlash (dir : Loc) : Path := (Path.ofLoc dir).join .empty

/-- The three ways a path is let through to the check: as the place it leads to, as its last name in
the parent's place, or as it is. -/
theorem candidate_eq_ok (hp : candidate h abs = .ok p) :
    (∃ loc, h.resolve? abs = some loc ∧ p = .ofLoc loc) ∨
      h.resolve? abs = none ∧
        (abs.parent? = some .empty ∧ p = abs ∨
          ∃ parent dir, abs.parent? = some parent ∧ parent ≠ .empty ∧ h.resolve? parent = some dir ∧
            (abs.fileName? = none ∧ p = withSlash dir ∨
              ∃ n, abs.fileName? = some n ∧ p = .ofLoc (dir ++ [n]))) := by
  unfold candidate at hp
  cases habs : h.resolve? abs with
  | some loc =>
    simp only [habs, Option.isSome_some, if_true, canonicalize, Option.map_some] at hp
    exact Or.inl ⟨loc, rfl, (Except.ok.inj hp).symm⟩
  | none =>
    refine Or.inr ⟨rfl, ?_⟩
    simp only [habs, Option.isSome_none, Bool.false_eq_true, if_false] at hp
    cases hparent : abs.parent? with
    | none => simp [hparent] at hp
    | some parent =>
      simp only [hparent] at hp
      by_cases hne : parent = .empty
      · rw [if_pos hne] at hp
        exact Or.inl ⟨by rw [hne], (Except.ok.inj hp).symm⟩
      · rw [if_neg hne] at hp
        cases hdir : h.resolve? parent with
        | none => simp [hdir] at hp
        | some dir =>
          simp only [hdir, Option.isSome_some, if_true, canonicalize, Option.map_some] at hp
          refine Or.inr ⟨parent, dir, rfl, hne, hdir, ?_⟩
          cases hname : abs.fileName? with
          | none => exact Or.inl ⟨rfl, by simpa [hname, withSlash, Path.empty] using hp.symm⟩
          | some n =>
            simp only [hname, Option.toList_some, List.map_cons, List.map_nil, join_name] at hp
            exact Or.inr ⟨n, rfl, (Except.ok.inj hp).symm⟩

theorem candidate_of_unfollowed (habs : h.resolve? abs = none) (hp : Unfollowed h abs p) :
    candidate h abs = .ok p := by
  cases hp with
  | link hparent hne hdir hname hlink =>
    simp [candidate, habs, hparent, hne, hdir, canonicalize, hname, join_name]
  | lone hparent => simp [candidate, habs, hparent]

/-! ## What is touched -/

/-- Above `p` there is nothing to make: it has no parent, or the parent is there. -/
def Grounded (h : Host) (p : Path) : Prop :=
  p.parent? = none ∨ p.parent? = some .empty ∨ ∃ dir, Real h.tree dir ∧ p.parent? = some (.ofLoc dir)

theorem opens_of_touches (hp : Grounded h p) (hloc : loc ∈ op.touches h p) : loc ∈ op.opens h p := by
  unfold FileTool.Op.touches at hloc
  unfold FileTool.Op.opens
  by_cases hcreates : op.creates = true
  · rw [if_pos hcreates] at hloc ⊢
    rcases hp with hparent | hparent | ⟨dir, hreal, hparent⟩
    · simpa [hparent] using hloc
    · simpa [hparent, createDirAll] using hloc
    · simp only [hparent, Host.createDirAll_ofLoc hreal, List.nil_append] at hloc
      split at hloc
      · exact hloc
      · simp at hloc
  · rwa [if_neg hcreates] at hloc ⊢

theorem mem_opens (hloc : loc ∈ op.opens h p) :
    h.locate p = .found loc ∨ ∃ d n, h.locate p = .missing d n false ∧ loc = d ++ [n] := by
  unfold FileTool.Op.opens at hloc
  split at hloc
  · unfold Host.openCreate at hloc
    split at hloc
    · next l hl =>
      split at hloc
      · simp at hloc
      · exact Or.inl (by rw [hl, List.mem_singleton.1 hloc])
    · next d n hl => exact Or.inr ⟨d, n, hl, List.mem_singleton.1 hloc⟩
    · simp at hloc
  · unfold Host.openRead at hloc
    exact Or.inl (Host.resolve?_eq_some.1 (by simpa using hloc))

theorem grounded_ofLoc (hreal : Real h.tree loc) : Grounded h (.ofLoc loc) := by
  unfold Grounded
  rw [parent?_ofLoc]
  rcases List.eq_nil_or_concat loc with rfl | ⟨init, n, rfl⟩
  · exact Or.inl rfl
  · rw [List.concat_eq_append] at hreal ⊢
    obtain ⟨node, hnode, -⟩ := hreal
    exact Or.inr (Or.inr ⟨init, real_of_isDir (isDir_of_find hnode), by simp⟩)

theorem grounded_snoc (hreal : Real h.tree dir) (n : String) : Grounded h (.ofLoc (dir ++ [n])) :=
  Or.inr (Or.inr ⟨dir, hreal, by rw [parent?_ofLoc]; simp⟩)

theorem segs_withSlash (dir : Loc) :
    withSlash dir = { absolute := true, segs := dir.map .name ++ if dir = [] then [] else [.here] } := by
  by_cases hdir : dir = [] <;> simp [withSlash, Path.join, Path.ofLoc, Path.empty, hdir]

theorem trimmed_withSlash (dir : Loc) : (withSlash dir).trimmed = .ofLoc dir := by
  have hofLoc := trimmed_ofLoc dir
  rw [segs_withSlash]
  by_cases hdir : dir = []
  · simp [hdir, Path.trimmed, Path.ofLoc]
  · simp only [Path.trimmed, Path.ofLoc] at hofLoc ⊢
    rw [if_neg hdir, List.rdropWhile_concat_pos _ _ _ (by simp)]
    exact hofLoc

theorem grounded_withSlash (hreal : Real h.tree dir) : Grounded h (withSlash dir) := by
  have hparent : (withSlash dir).parent? = (Path.ofLoc dir).parent? := by
    simp only [Path.parent?, trimmed_withSlash, trimmed_ofLoc]
    rfl
  have hgrounded := grounded_ofLoc hreal
  unfold Grounded at hgrounded ⊢
  rwa [hparent]

theorem components_withSlash (dir : Loc) : (withSlash dir).components = (Path.ofLoc dir).components := by
  rw [segs_withSlash]
  by_cases hdir : dir = [] <;> simp [Path.components, Path.ofLoc, hdir]

theorem allowed_withSlash (roots : List Path) (dir : Loc) :
    allowed h roots (withSlash dir) = allowed h roots (.ofLoc dir) := by
  have habsolute : (withSlash dir).absolute = (Path.ofLoc dir).absolute := by rw [segs_withSlash]; rfl
  simp only [allowed, Path.startsWith, components_withSlash, habsolute]

/-! ## The three ways -/

/-- What is opened behind the names of a place. -/
theorem opens_names (hreal : Real h.tree dir) {segs : List Seg} {l : Loc}
    (hl : l ∈ op.opens h { absolute := true, segs := dir.map .name ++ segs }) :
    walk h.tree h.maxLinks dir segs = .found l ∨
      ∃ d n, walk h.tree h.maxLinks dir segs = .missing d n false ∧ l = d ++ [n] := by
  have hlocate := mem_opens hl
  have hne : h.locate { absolute := true, segs := dir.map .name ++ segs } ≠ .refused := by
    rcases hlocate with hfound | ⟨d, n, hmissing, -⟩
    · simp [hfound]
    · simp [hmissing]
  rwa [Host.locate_names hreal segs hne] at hlocate

theorem opens_ofLoc (hreal : Real h.tree loc) {l : Loc} (hl : l ∈ op.opens h (.ofLoc loc)) : l = loc := by
  have hsegs : Path.ofLoc loc = { absolute := true, segs := loc.map .name ++ [] } := by simp [Path.ofLoc]
  rw [hsegs] at hl
  have hwalk := opens_names hreal hl
  rw [walk_nil] at hwalk
  rcases hwalk with hfound | ⟨d, n, hmissing, -⟩
  · exact (Walked.found.inj hfound).symm
  · simp at hmissing

theorem opens_withSlash (hreal : Real h.tree dir) {l : Loc} (hl : l ∈ op.opens h (withSlash dir)) :
    l = dir := by
  rw [segs_withSlash] at hl
  have hwalk := opens_names hreal hl
  by_cases hdir : dir = []
  · rw [if_pos hdir, walk_nil] at hwalk
    rcases hwalk with hfound | ⟨d, n, hmissing, -⟩
    · exact (Walked.found.inj hfound).symm
    · simp at hmissing
  · rw [if_neg hdir, walk_here] at hwalk
    split at hwalk
    · rcases hwalk with hfound | ⟨d, n, hmissing, -⟩
      · exact (Walked.found.inj hfound).symm
      · simp at hmissing
    · simp at hwalk

/-- A last name that is no link is opened, or created, where it stands. -/
theorem opens_snoc (hreal : Real h.tree dir) (hlink : ∀ target, h.tree.find (dir ++ [n]) ≠ some (.link target))
    {l : Loc} (hl : l ∈ op.opens h (.ofLoc (dir ++ [n]))) : l = dir ++ [n] := by
  have hsegs : Path.ofLoc (dir ++ [n]) = { absolute := true, segs := dir.map .name ++ [.name n] } := by
    simp [Path.ofLoc]
  rw [hsegs] at hl
  have hwalk := opens_names hreal hl
  rw [walk_name hlink] at hwalk
  split at hwalk
  · split at hwalk
    · rcases hwalk with hfound | ⟨d, m, hmissing, -⟩
      · exact (Walked.found.inj hfound).symm
      · simp at hmissing
    · rcases hwalk with hfound | ⟨d, m, hmissing, rfl⟩
      · simp at hfound
      · obtain ⟨rfl, rfl, -⟩ := Walked.missing.inj hmissing
        rfl
  · simp at hwalk

/-- Through a link whose directory is there, or for a lone name, the operation touches all that it
opens. -/
theorem touches_of_opens (hp : Unfollowed h abs p) (hloc : loc ∈ op.opens h p) : loc ∈ op.touches h p := by
  unfold FileTool.Op.opens at hloc
  unfold FileTool.Op.touches
  by_cases hcreates : op.creates = true
  · rw [if_pos hcreates] at hloc ⊢
    cases hp with
    | lone hparent => simpa [hparent, createDirAll] using hloc
    | @link parent dir n target hparent hne hdir hname hlink =>
      have hisDir : h.isDir dir = true := isDir_of_find hlink
      have hreal := real_of_isDir hisDir
      have hparent' : (Path.ofLoc (dir ++ [n])).parent? = some (.ofLoc dir) := by
        rw [parent?_ofLoc]
        simp
      have hok : h.isDirAt (.ofLoc dir) = true := by
        have hdir' : h.refuses (.ofLoc dir) = false := by
          by_contra hrefuses
          have hbelow := h.refuses_below _ _ hparent' (by simpa using hrefuses)
          simp [Host.openCreate, Host.locate, hbelow] at hloc
        rw [Host.isDirAt, Host.resolve?_ofLoc hreal hdir']
        exact hisDir
      simp only [hparent', Host.createDirAll_ofLoc hreal, hok, if_true, List.nil_append]
      exact hloc
  · rwa [if_neg hcreates] at hloc ⊢

theorem check_eq_ok {home : Option (List Char)} {roots : List Path} {cwd : Path} {path : List Char}
    (hroots : roots ≠ []) :
    FileTool.check h home roots cwd path = .ok p ↔
      candidate h (absolutize (.ofChars (expandHome home path)) cwd) = .ok p ∧
        allowed h roots p = true := by
  unfold FileTool.check resolveInRoots
  cases candidate h (absolutize (.ofChars (expandHome home path)) cwd) with
  | error e => simp
  | ok q =>
    simp only [List.isEmpty_iff, if_neg hroots, Except.ok.injEq]
    constructor
    · intro hq
      split at hq
      · next hallowed =>
        obtain rfl := Except.ok.inj hq
        exact ⟨rfl, hallowed⟩
      · simp at hq
    · rintro ⟨rfl, hallowed⟩
      rw [if_pos hallowed]

/-- What a checked path touches lies in the roots, but for a name that was never followed. -/
theorem inside_of_candidate {roots : List Path} (hp : candidate h abs = .ok p)
    (hallowed : allowed h roots p = true) (hloc : loc ∈ op.touches h p) :
    Inside h roots loc ∨ h.resolve? abs = none ∧ Unfollowed h abs p ∧ loc ∈ op.opens h p := by
  rcases candidate_eq_ok hp with ⟨l, hl, rfl⟩ | ⟨habs, hp⟩
  · have hreal := Host.real_of_resolve? hl
    obtain rfl := opens_ofLoc hreal (opens_of_touches (grounded_ofLoc hreal) hloc)
    exact Or.inl hallowed
  rcases hp with ⟨hparent, rfl⟩ | ⟨parent, dir, hparent, hne, hdir, hlast⟩
  · exact Or.inr ⟨habs, .lone hparent, opens_of_touches (Or.inr (Or.inl hparent)) hloc⟩
  have hreal := Host.real_of_resolve? hdir
  rcases hlast with ⟨-, rfl⟩ | ⟨n, hname, rfl⟩
  · obtain rfl := opens_withSlash hreal (opens_of_touches (grounded_withSlash hreal) hloc)
    rw [allowed_withSlash] at hallowed
    exact Or.inl hallowed
  · have hopens := opens_of_touches (grounded_snoc hreal n) hloc
    by_cases hlink : ∃ target, h.tree.find (dir ++ [n]) = some (.link target)
    · obtain ⟨target, hlink⟩ := hlink
      exact Or.inr ⟨habs, .link hparent hne hdir hname hlink, hopens⟩
    · obtain rfl := opens_snoc hreal (fun target ht => hlink ⟨target, ht⟩) hopens
      exact Or.inl hallowed

/-- An operation stays within the roots unless its path does not resolve and ends in a link, and the
link leads the operation out of them. -/
theorem confined_iff (h : Host) (home : Option (List Char)) (roots : List Path) (cwd : Path)
    (op : FileTool.Op) (path : List Char) (hroots : roots ≠ []) :
    Confined h home roots cwd op path ↔
      ¬ Escapes h roots op (absolutize (.ofChars (expandHome home path)) cwd) := by
  unfold Confined
  simp only [check_eq_ok hroots]
  constructor
  · rintro hconfined ⟨habs, p, hp, hallowed, loc, hloc, houtside⟩
    exact houtside (hconfined p ⟨candidate_of_unfollowed habs hp, hallowed⟩ loc (touches_of_opens hp hloc))
  · rintro hescapes p ⟨hp, hallowed⟩ loc hloc
    rcases inside_of_candidate hp hallowed hloc with hinside | ⟨habs, hunfollowed, hopens⟩
    · exact hinside
    · by_contra houtside
      exact hescapes ⟨habs, p, hunfollowed, hallowed, loc, hopens, houtside⟩

/-- Two directories, `w` and `out`; in `w` a file `f` and a link `l`. -/
def linkedHost (target : Path) : Host where
  entries := [("w", .dir [("f", .file), ("l", .link target)]), ("out", .dir [])]
  dir := []
  maxLinks := 40
  refuses := fun _ => false
  refuses_below := by simp

/-- The link leads to the file beside it. -/
theorem confined_beside :
    Confined (linkedHost (.ofLoc ["w", "f"])) none [.ofLoc ["w"]] (.ofLoc ["w"]) .write ['l'] :=
  (confined_iff (linkedHost (.ofLoc ["w", "f"])) none [.ofLoc ["w"]] (.ofLoc ["w"]) .write ['l']
    (by simp)).2 fun hescapes => absurd hescapes.1 (by decide)

/-- The link leads to a file in the other directory that is not there yet: it is created. -/
theorem confined_fails :
    ¬ ∀ (h : Host) (home : Option (List Char)) (roots : List Path) (cwd : Path) (op : FileTool.Op)
      (path : List Char), roots ≠ [] → Confined h home roots cwd op path := by
  intro h
  have hinside := h (linkedHost (.ofLoc ["out", "f"])) none [.ofLoc ["w"]] (.ofLoc ["w"]) .write ['l']
    (by simp) (.ofLoc ["w", "l"]) (by decide) ["out", "f"] (by decide)
  unfold Inside at hinside
  exact absurd hinside (by decide)

end OhMyClaw.PathGuard
