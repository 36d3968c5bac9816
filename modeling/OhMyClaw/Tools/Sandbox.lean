import OhMyClaw.Lib.Enclosed
import OhMyClaw.Lib.Steps
import OhMyClaw.Tools.PathGuard

/-!
# The roots over a whole run

Any number of sessions call the file tool and change their directories.  A call checks its path and then goes to
the disk, one system call after the other; between any two of them other calls go on, and the disk may be changed
by anybody else.

    passes_iff       a check that nothing comes between is `resolveInRoots`
    confined_run     where no link within the roots leads out of them or nowhere, whatever is opened, made or
                     searched lies within the roots, and so does every directory a session has changed to

`glob` is left out: it walks wherever its pattern leads, and compares what it shows with the roots.
-/

namespace OhMyClaw.Sandbox

open Posix PathGuard

/-! ## The source -/

/-- `FileArgs` and `SysArgs::Cd`, by what they do on the disk. -/
inductive Op where
  | read | write | edit | append | list | stat | head | tail | grep
  | cd
deriving DecidableEq, Repr

/-- What a call does once its path has been let through. -/
inductive Prim where
  /-- Open for reading, list, or ask about. -/
  | look
  /-- As `look`, but it does not matter if there is nothing. -/
  | measure
  /-- Make the directories above that are missing. -/
  | parents
  /-- Open for writing, and create what is missing. -/
  | create
  /-- Read something below; `grep` goes through all there is. -/
  | search
  /-- See that it is a directory. -/
  | enter
  /-- It is the session's directory from now on. -/
  | settle
deriving DecidableEq, Repr

def Op.prims : Op → List Prim
  | .read | .list | .stat | .head | .tail => [.look]
  | .write => [.parents, .create]
  | .edit => [.look, .create]
  | .append => [.parents, .create, .measure]
  | .grep => [.search]
  | .cd => [.enter, .settle]

structure Cfg where
  home : Option (List Char)
  allowedRoots : List Path
  initialCwd : Path

variable (cfg : Cfg)

/-- `cd` leaves a `~` as it is. -/
def Op.expand : Op → List Char → List Char
  | .cd, path => path
  | _, path => expandHome cfg.home path

/-- How far a check has come: whether there is something at the path, the path or its parent canonicalised, and the
roots one by one. -/
inductive Check where
  | probe (abs : Path)
  | canon (abs : Path)
  | probeParent (abs parent : Path)
  | canonParent (abs parent : Path)
  | compare (p : Path) (roots : List Path)

inductive Verdict where
  | refused
  | on (c : Check)
  | passed (p : Path)

/-- What is to be compared; without roots everything is allowed. -/
def compareRoots (p : Path) : Verdict :=
  if cfg.allowedRoots.isEmpty then .passed p else .on (.compare p cfg.allowedRoots)

/-- The last name of a path, behind its parent in canonical form. -/
def renamed (abs dir : Path) : Path := dir.join { absolute := false, segs := abs.fileName?.toList.map .name }

/-- One system call of `resolve_in_roots`. -/
def Check.next (h : Host) : Check → Verdict
  | .probe abs =>
    if (h.resolve? abs).isSome then .on (.canon abs)
    else
      match abs.parent? with
      | none => .refused
      | some parent => if parent = .empty then compareRoots cfg abs else .on (.probeParent abs parent)
  | .canon abs =>
    match canonicalize h abs with
    | some p => compareRoots cfg p
    | none => .refused
  | .probeParent abs parent => if (h.resolve? parent).isSome then .on (.canonParent abs parent) else .refused
  | .canonParent abs parent =>
    match canonicalize h parent with
    | some dir => compareRoots cfg (renamed abs dir)
    | none => .refused
  | .compare _ [] => .refused
  | .compare p (root :: roots) => if p.startsWith (rootCanon h root) then .passed p else .on (.compare p roots)

/-- How far the making of directories has come: `dir` is tried, or looked at as it could not be made; those in
`below` wait for it and are made after it. -/
inductive Making where
  | first (dir : Path) (below : List Path)
  | confirm (dir : Path) (below : List Path)
  | again (below : List Path)

inductive Stage where
  | check (c : Check)
  | make (p : Path) (m : Making) (left : List Prim)
  | disk (p : Path) (left : List Prim)

/-- What a system call opens or makes, the host after it, how the call goes on if it does, and the directory the
session changes to. -/
structure Performed where
  touched : List Loc
  host : Host
  next : Option Stage
  dir : Option Path

def Performed.idle (h : Host) (next : Option Stage) : Performed := { touched := [], host := h, next, dir := none }

/-- One system call of `create_dir_all`. -/
def Making.perform (h : Host) (p : Path) (left : List Prim) : Making → Performed
  | .first dir below =>
    if dir = .empty then .idle h (some (.make p (.again below) left))
    else
      match h.mkdir dir with
      | .made h' loc => { touched := [loc], host := h', next := some (.make p (.again below) left), dir := none }
      | .present | .refused => .idle h (some (.make p (.confirm dir below) left))
      | .absent => .idle h (dir.parent?.map fun parent => .make p (.first parent (dir :: below)) left)
  | .confirm dir below => .idle h (if h.isDirAt dir then some (.make p (.again below) left) else none)
  | .again [] => .idle h (some (.disk p left))
  | .again (dir :: below) =>
    match h.mkdir dir with
    | .made h' loc => { touched := [loc], host := h', next := some (.make p (.again below) left), dir := none }
    | _ => .idle h (some (.make p (.confirm dir below) left))

/-- One system call on a path that was let through; a search goes on with what is named, and is never at its end by
itself. -/
def Prim.perform (h : Host) (p : Path) (below : Loc) (left : List Prim) : Prim → Performed
  | .look =>
    { touched := h.openRead p, host := h, next := (h.resolve? p).map fun _ => .disk p left, dir := none }
  | .measure => { touched := h.openRead p, host := h, next := some (.disk p left), dir := none }
  | .parents =>
    .idle h <| some <|
      match p.parent? with
      | none => .disk p left
      | some parent => .make p (.first parent []) left
  | .create =>
    { touched := h.openCreate p, host := h.create p
      next := if h.openCreate p ≠ [] then some (.disk p left) else none, dir := none }
  | .search =>
    { touched := h.openRead (p.join { absolute := false, segs := below.map .name }), host := h
      next := some (.disk p (.search :: left)), dir := none }
  | .enter =>
    { touched := h.openRead p, host := h, next := if h.isDirAt p then some (.disk p left) else none, dir := none }
  | .settle => { touched := [], host := h, next := some (.disk p left), dir := some p }

def Stage.perform (op : Op) (h : Host) (below : Loc) : Stage → Performed
  | .check c =>
    match c.next cfg h with
    | .refused => .idle h none
    | .on c' => .idle h (some (.check c'))
    | .passed p => .idle h (some (.disk p op.prims))
  | .make p m left => m.perform h p left
  | .disk _ [] => .idle h none
  | .disk p (prim :: left) => prim.perform h p below left

structure Call where
  session : String
  op : Op
  stage : Stage

structure World where
  host : Host
  /-- The directories the sessions have changed to. -/
  cwds : List (String × Path)
  calls : List Call

def World.cwd (w : World) (session : String) : Path := (w.cwds.lookup session).getD cfg.initialCwd

inductive Act where
  | call (session : String) (op : Op) (path : List Char)
  /-- A call takes its next step. -/
  | go (i : Nat) (below : Loc)
  /-- A call is over: it is done, has timed out, or is aborted. -/
  | ends (i : Nat)
  /-- Somebody else changes the disk. -/
  | outside (entries : List (String × Node))

def Act.isOutside : Act → Bool
  | .outside _ => true
  | _ => false

def step (w : World) : Act → Option World
  | .call session op path =>
    let abs := absolutize (.ofChars (op.expand cfg path)) (w.cwd cfg session)
    some { w with calls := w.calls ++ [{ session, op, stage := .check (.probe abs) }] }
  | .go i below =>
    w.calls[i]?.map fun c =>
      let r := c.stage.perform cfg c.op w.host below
      { host := r.host
        cwds := r.dir.toList.map (fun p => (c.session, p)) ++ w.cwds
        calls := w.calls.eraseIdx i ++ r.next.toList.map fun stage => { c with stage } }
  | .ends i => some { w with calls := w.calls.eraseIdx i }
  | .outside entries => some { w with host := { w.host with entries } }

/-- What a step of a call opens or makes. -/
def touched (w : World) : Act → List Loc
  | .go i below => w.calls[i]?.toList.flatMap fun c => (c.stage.perform cfg c.op w.host below).touched
  | _ => []

def start (h : Host) : World := { host := h, cwds := [], calls := [] }

/-! ## A check by itself -/

variable {cfg} {places : List Loc} {h h' : Host} {p abs : Path} {w w' : World}

/-- What is let through of what is compared with the roots. -/
def admitted (cfg : Cfg) (h : Host) (p : Path) : Option Path :=
  if cfg.allowedRoots.isEmpty ∨ allowed h cfg.allowedRoots p = true then some p else none

/-- What comes of a check that nothing comes between. -/
def Check.outcome (cfg : Cfg) (h : Host) : Check → Option Path
  | .probe abs => (candidate h abs).toOption.bind (admitted cfg h)
  | .canon abs => (canonicalize h abs).bind (admitted cfg h)
  | .probeParent abs parent | .canonParent abs parent =>
    (canonicalize h parent).bind fun dir => admitted cfg h (renamed abs dir)
  | .compare p roots => if allowed h roots p then some p else none

def Verdict.outcome (cfg : Cfg) (h : Host) : Verdict → Option Path
  | .refused => none
  | .on c => c.outcome cfg h
  | .passed p => some p

theorem compareRoots_outcome (p : Path) : (compareRoots cfg p).outcome cfg h = admitted cfg h p := by
  unfold compareRoots admitted
  by_cases hroots : cfg.allowedRoots.isEmpty = true
  · simp [hroots, Verdict.outcome]
  · simp [hroots, Verdict.outcome, Check.outcome]

theorem canonicalize_of_isNone (hnone : ¬ (h.resolve? p).isSome = true) : canonicalize h p = none := by
  unfold canonicalize
  rw [Option.not_isSome_iff_eq_none.1 hnone]
  rfl

/-- What comes of a check is decided as long as nothing changes. -/
theorem next_outcome (c : Check) : (c.next cfg h).outcome cfg h = c.outcome cfg h := by
  cases c with
  | probe abs =>
    unfold Check.next Check.outcome candidate
    by_cases hthere : (h.resolve? abs).isSome = true
    · simp only [if_pos hthere, Verdict.outcome, Check.outcome]
      cases canonicalize h abs <;> rfl
    · simp only [if_neg hthere]
      cases abs.parent? with
      | none => rfl
      | some parent =>
        dsimp only
        by_cases hempty : parent = .empty
        · rw [if_pos hempty, if_pos hempty, compareRoots_outcome]
          rfl
        · rw [if_neg hempty, if_neg hempty]
          by_cases hparent : (h.resolve? parent).isSome = true
          · rw [if_pos hparent]
            simp only [Verdict.outcome, Check.outcome]
            cases canonicalize h parent <;> rfl
          · rw [if_neg hparent]
            simp only [Verdict.outcome, Check.outcome, canonicalize_of_isNone hparent]
            rfl
  | canon abs =>
    simp only [Check.next, Check.outcome]
    cases canonicalize h abs with
    | none => rfl
    | some p => exact compareRoots_outcome p
  | probeParent abs parent =>
    simp only [Check.next, Check.outcome]
    by_cases hparent : (h.resolve? parent).isSome = true
    · rw [if_pos hparent]
      rfl
    · rw [if_neg hparent, canonicalize_of_isNone hparent]
      rfl
  | canonParent abs parent =>
    simp only [Check.next, Check.outcome]
    cases canonicalize h parent with
    | none => rfl
    | some dir => exact compareRoots_outcome (renamed abs dir)
  | compare p roots =>
    cases roots with
    | nil => rfl
    | cons root roots =>
      simp only [Check.next, Check.outcome, allowed, List.any_cons]
      by_cases hroot : p.startsWith (rootCanon h root) = true
      · simp [hroot, Verdict.outcome]
      · simp [hroot, Verdict.outcome, Check.outcome, allowed]

/-- A bound on the system calls that are left of a check. -/
def Check.left (cfg : Cfg) : Check → Nat
  | .probe _ => cfg.allowedRoots.length + 3
  | .probeParent _ _ => cfg.allowedRoots.length + 2
  | .canon _ | .canonParent _ _ => cfg.allowedRoots.length + 1
  | .compare _ roots => roots.length

theorem left_compareRoots {c : Check} (hon : compareRoots cfg p = .on c) : c.left cfg = cfg.allowedRoots.length := by
  unfold compareRoots at hon
  split at hon
  · cases hon
  · cases hon
    rfl

theorem left_next {c c' : Check} (hon : c.next cfg h = .on c') : c'.left cfg < c.left cfg := by
  cases c with
  | probe abs =>
    simp only [Check.next] at hon
    split at hon
    · cases hon
      show cfg.allowedRoots.length + 1 < cfg.allowedRoots.length + 3
      omega
    · split at hon
      · cases hon
      · split at hon
        · rw [left_compareRoots hon]
          show cfg.allowedRoots.length < cfg.allowedRoots.length + 3
          omega
        · cases hon
          show cfg.allowedRoots.length + 2 < cfg.allowedRoots.length + 3
          omega
  | canon abs =>
    simp only [Check.next] at hon
    split at hon
    · rw [left_compareRoots hon]
      exact Nat.lt_succ_self _
    · cases hon
  | probeParent abs parent =>
    simp only [Check.next] at hon
    split at hon
    · cases hon
      exact Nat.lt_succ_self _
    · cases hon
  | canonParent abs parent =>
    simp only [Check.next] at hon
    split at hon
    · rw [left_compareRoots hon]
      exact Nat.lt_succ_self _
    · cases hon
  | compare p roots =>
    cases roots with
    | nil => cases hon
    | cons root roots =>
      simp only [Check.next] at hon
      split at hon
      · cases hon
      · cases hon
        exact Nat.lt_succ_self _

/-- System call after system call, on one host, the path comes out. -/
inductive Check.Passes (cfg : Cfg) (h : Host) : Check → Path → Prop where
  | last {c : Check} {p : Path} (hp : c.next cfg h = .passed p) : Passes cfg h c p
  | on {c c' : Check} {p : Path} (hc : c.next cfg h = .on c') (hp : Passes cfg h c' p) : Passes cfg h c p

theorem passes_iff_outcome {c : Check} : c.Passes cfg h p ↔ c.outcome cfg h = some p := by
  constructor
  · intro hp
    induction hp with
    | last hp =>
      rw [← next_outcome, hp]
      rfl
    | on hc _ ih =>
      rw [← next_outcome, hc]
      exact ih
  · intro hp
    induction hn : c.left cfg using Nat.strong_induction_on generalizing c with
    | _ n ih =>
      rw [← next_outcome] at hp
      cases hnext : c.next cfg h with
      | refused =>
        rw [hnext] at hp
        cases hp
      | on c' =>
        rw [hnext] at hp
        exact .on hnext (ih (c'.left cfg) (hn ▸ left_next hnext) hp rfl)
      | passed q =>
        rw [hnext] at hp
        obtain rfl := Option.some.inj hp
        exact .last hnext

/-- A check that nothing comes between lets a path through exactly as `resolve_in_roots` does. -/
theorem passes_iff {path cwd : Path} :
    (Check.probe (absolutize path cwd)).Passes cfg h p ↔ resolveInRoots h path cwd cfg.allowedRoots = .ok p := by
  rw [passes_iff_outcome]
  simp only [Check.outcome, resolveInRoots]
  unfold admitted
  cases candidate h (absolutize path cwd) with
  | error e => simp [Except.toOption]
  | ok q =>
    simp only [Except.toOption, Option.bind_some]
    by_cases hroots : cfg.allowedRoots.isEmpty = true
    · simp [hroots]
    · by_cases hallowed : allowed h cfg.allowedRoots q = true
      · simp [hroots, hallowed]
      · simp [hroots, hallowed]

/-! ## What holds -/

/-- The roots are where they were, and no link within them leads out of them or nowhere. -/
structure Closed (cfg : Cfg) (places : List Loc) (h : Host) : Prop where
  roots : ∀ root ∈ cfg.allowedRoots, ∃ r ∈ places, h.resolve? root = some r
  links : Sealed h places

/-- A place, with or without a slash behind it. -/
def Placed (p : Path) (loc : Loc) : Prop := p = .ofLoc loc ∨ p = withSlash loc

/-- A path that was let through. -/
def Checked (places : List Loc) (p : Path) : Prop := ∃ loc, Within places loc ∧ Placed p loc

def Check.Fits (cfg : Cfg) : Check → Prop
  | .probe abs => abs.absolute = true
  | .canon _ | .probeParent _ _ | .canonParent _ _ => True
  | .compare p roots => (∃ loc, Placed p loc) ∧ roots ⊆ cfg.allowedRoots

def Verdict.Fits (cfg : Cfg) (places : List Loc) : Verdict → Prop
  | .refused => True
  | .on c => c.Fits cfg
  | .passed p => Checked places p

/-- The directories to be made are the roots, or above them or below. -/
def Making.Fits (places : List Loc) : Making → Prop
  | .first dir below | .confirm dir below => ∀ d ∈ dir :: below, ∃ loc, d = .ofLoc loc ∧ Near places loc
  | .again below => ∀ d ∈ below, ∃ loc, d = .ofLoc loc ∧ Near places loc

def Stage.Fits (cfg : Cfg) (places : List Loc) : Stage → Prop
  | .check c => c.Fits cfg
  | .make p m _ => Checked places p ∧ m.Fits places
  | .disk p _ => Checked places p

structure Inv (cfg : Cfg) (places : List Loc) (w : World) : Prop where
  closed : Closed cfg places w.host
  calls : ∀ c ∈ w.calls, c.stage.Fits cfg places
  cwds : ∀ e ∈ w.cwds, Checked places e.2

theorem Placed.absolute {loc : Loc} (hp : Placed p loc) : p.absolute = true := by
  obtain rfl | rfl := hp
  · rfl
  · rw [segs_withSlash]

theorem Checked.absolute (hp : Checked places p) : p.absolute = true := by
  obtain ⟨loc, -, hp⟩ := hp
  exact hp.absolute

theorem Checked.under (hp : Checked places p) : p.Under places := by
  obtain ⟨loc, hloc, rfl | rfl⟩ := hp
  · exact ⟨rfl, loc, [], hloc, by simp [Path.ofLoc], by simp⟩
  · rw [segs_withSlash]
    refine ⟨rfl, loc, _, hloc, rfl, fun s hseg => ?_⟩
    split at hseg
    · cases hseg
    · rw [List.mem_singleton.1 hseg]
      simp

/-- What is named below a path that was let through. -/
theorem Checked.below (hp : Checked places p) (below : Loc) :
    (p.join { absolute := false, segs := below.map .name }).Under places := by
  obtain ⟨habs, loc, tail, hloc, hsegs, htail⟩ := hp.under
  obtain ⟨more, hjoin, hmore⟩ : ∃ more, (p.join { absolute := false, segs := below.map .name }).segs = p.segs ++ more ∧
      ∀ s ∈ more, s ≠ Seg.up := by
    refine ⟨_, rfl, fun s hseg => ?_⟩
    split at hseg
    · rw [List.mem_singleton.1 hseg]
      simp
    · obtain ⟨n, -, rfl⟩ := List.mem_map.1 hseg
      simp
  refine ⟨habs, loc, tail ++ more, hloc, by rw [hjoin, hsegs, List.append_assoc], fun s hseg => ?_⟩
  obtain hseg | hseg := List.mem_append.1 hseg
  · exact htail s hseg
  · exact hmore s hseg

/-- The directory above a path that was let through is within, or above one of the places. -/
theorem Checked.parent (hp : Checked places p) {parent : Path} (hparent : p.parent? = some parent) :
    ∃ loc, parent = .ofLoc loc ∧ Near places loc := by
  obtain ⟨loc, hloc, hp⟩ := hp
  have hofLoc : p.parent? = (Path.ofLoc loc).parent? := by
    obtain rfl | rfl := hp
    · rfl
    · simp only [Path.parent?, trimmed_withSlash, trimmed_ofLoc]
      rfl
  rw [hofLoc, parent?_ofLoc] at hparent
  split at hparent
  · cases hparent
  · obtain rfl := Option.some.inj hparent
    exact ⟨_, rfl, hloc.near.dropLast⟩

theorem Closed.grow (hc : Closed cfg places h) (hg : Grown h h') : Closed cfg places h' where
  roots root hroot := by
    obtain ⟨r, hr, hresolve⟩ := hc.roots root hroot
    exact ⟨r, hr, hg.resolve? hresolve⟩
  links := hc.links.grow hg

/-! ## What is let through -/

/-- What begins with one of the roots is within. -/
theorem Closed.checked (hc : Closed cfg places h) {root : Path} (hroot : root ∈ cfg.allowedRoots) {loc : Loc}
    (hp : Placed p loc) (hstarts : p.startsWith (rootCanon h root) = true) : Checked places p := by
  obtain ⟨r, hr, hresolve⟩ := hc.roots root hroot
  have hcanon : rootCanon h root = .ofLoc r := by simp [rootCanon, canonicalize, hresolve]
  have hofLoc : (Path.ofLoc loc).startsWith (.ofLoc r) = true := by
    rw [hcanon] at hstarts
    obtain rfl | rfl := hp
    · exact hstarts
    · have habsolute : (withSlash loc).absolute = (Path.ofLoc loc).absolute := by rw [segs_withSlash]; rfl
      simpa only [Path.startsWith, components_withSlash, habsolute] using hstarts
  have hprefix : (r.map Seg.name) <+: loc.map Seg.name := by
    simp only [Path.startsWith, components_ofLoc] at hofLoc
    simpa [Path.ofLoc] using hofLoc
  obtain ⟨r', hr', heq⟩ := List.prefix_map_iff.1 hprefix
  have hinj : Function.Injective Seg.name := fun _ _ => Seg.name.inj
  obtain rfl : r = r' := List.map_injective_iff.2 hinj heq
  exact ⟨loc, ⟨r, hr, hr'⟩, hp⟩

theorem trimmed_absolute (p : Path) : p.trimmed.absolute = p.absolute := by
  unfold Path.trimmed
  split <;> rfl

/-- An absolute path has no empty parent. -/
theorem parent?_ne_empty (habs : abs.absolute = true) : abs.parent? ≠ some .empty := by
  intro hparent
  unfold Path.parent? at hparent
  split at hparent
  · cases hparent
  · have hempty := congrArg Path.absolute (Option.some.inj hparent)
    rw [trimmed_absolute] at hempty
    exact absurd (habs.symm.trans hempty) (by decide)

theorem placed_canonicalize (hp : canonicalize h abs = some p) : ∃ loc, p = .ofLoc loc := by
  obtain ⟨loc, -, rfl⟩ := Option.map_eq_some_iff.1 hp
  exact ⟨loc, rfl⟩

theorem placed_renamed (abs : Path) (dir : Loc) : ∃ loc, Placed (renamed abs (.ofLoc dir)) loc := by
  unfold renamed
  cases abs.fileName? with
  | none => exact ⟨dir, .inr rfl⟩
  | some n => exact ⟨dir ++ [n], .inl (join_name dir n)⟩

theorem compareRoots_fits (hroots : cfg.allowedRoots ≠ []) (hp : ∃ loc, Placed p loc) :
    (compareRoots cfg p).Fits cfg places := by
  unfold compareRoots
  rw [if_neg (by simpa using hroots)]
  exact ⟨hp, fun _ => id⟩

/-- One system call of a check: what it lets through is within. -/
theorem next_fits (hroots : cfg.allowedRoots ≠ []) (hc : Closed cfg places h) {c : Check} (hfits : c.Fits cfg) :
    (c.next cfg h).Fits cfg places := by
  cases c with
  | probe abs =>
    simp only [Check.next]
    split
    · trivial
    · split
      · trivial
      · next parent hparent =>
        rw [if_neg (by rintro rfl; exact parent?_ne_empty hfits hparent)]
        trivial
  | canon abs =>
    simp only [Check.next]
    split
    · next p hp =>
      obtain ⟨loc, rfl⟩ := placed_canonicalize hp
      exact compareRoots_fits hroots ⟨loc, .inl rfl⟩
    · trivial
  | probeParent abs parent =>
    simp only [Check.next]
    split
    · trivial
    · trivial
  | canonParent abs parent =>
    simp only [Check.next]
    split
    · next dir hdir =>
      obtain ⟨loc, rfl⟩ := placed_canonicalize hdir
      exact compareRoots_fits hroots (placed_renamed abs loc)
    · trivial
  | compare p roots =>
    obtain ⟨⟨loc, hp⟩, hsub⟩ := hfits
    cases roots with
    | nil => trivial
    | cons root roots =>
      simp only [Check.next]
      split
      · next hstarts => exact hc.checked (hsub List.mem_cons_self) hp hstarts
      · exact ⟨⟨loc, hp⟩, fun r hr => hsub (List.mem_cons_of_mem _ hr)⟩

/-! ## What a system call does -/

/-- It stays within, and leaves the call and the session's directory so that they do. -/
structure Performed.Stays (cfg : Cfg) (places : List Loc) (h : Host) (r : Performed) : Prop where
  touched : ∀ loc ∈ r.touched, Within places loc
  grown : Grown h r.host
  next : ∀ s ∈ r.next, s.Fits cfg places
  dir : ∀ p ∈ r.dir, Checked places p

theorem idle_stays {next : Option Stage} (hnext : ∀ s ∈ next, s.Fits cfg places) :
    (Performed.idle h next).Stays cfg places h :=
  ⟨by simp [Performed.idle], Grown.refl h, hnext, by simp [Performed.idle]⟩

theorem onward_stays {s : Stage} (hs : s.Fits cfg places) : (Performed.idle h (some s)).Stays cfg places h := by
  refine idle_stays fun t ht => ?_
  obtain rfl := Option.some.inj ht
  exact hs

theorem making_stays (hc : Closed cfg places h) (hp : Checked places p) (left : List Prim) {m : Making}
    (hm : m.Fits places) : (m.perform h p left).Stays cfg places h := by
  -- a directory that is made, with those that wait for it
  have hmade {dir : Path} {h' : Host} {loc : Loc} {below : List Path}
      (hdir : ∃ loc, dir = .ofLoc loc ∧ Near places loc) (hmkdir : h.mkdir dir = .made h' loc)
      (hbelow : ∀ d ∈ below, ∃ loc, d = .ofLoc loc ∧ Near places loc) :
      Performed.Stays cfg places h
        { touched := [loc], host := h', next := some (.make p (.again below) left), dir := none } := by
    obtain ⟨l, rfl, hnear⟩ := hdir
    obtain ⟨hwithin, hgrown⟩ := hc.links.mkdir hnear hmkdir
    refine ⟨fun l' hl' => ?_, hgrown, fun s hs => ?_, by simp⟩
    · rw [List.mem_singleton.1 hl']
      exact hwithin
    · obtain rfl := Option.some.inj hs
      exact ⟨hp, hbelow⟩
  cases m with
  | first dir below =>
    have hdir := hm dir List.mem_cons_self
    have hbelow (d : Path) (hd : d ∈ below) := hm d (List.mem_cons_of_mem _ hd)
    simp only [Making.perform]
    split
    · exact onward_stays ⟨hp, hbelow⟩
    · split
      · next hmkdir => exact hmade hdir hmkdir hbelow
      · exact onward_stays ⟨hp, hm⟩
      · exact onward_stays ⟨hp, hm⟩
      · refine idle_stays fun s hs => ?_
        obtain ⟨parent, hparent, rfl⟩ := Option.map_eq_some_iff.1 hs
        refine ⟨hp, fun d hd => ?_⟩
        obtain rfl | hd := List.mem_cons.1 hd
        · obtain ⟨loc, rfl, hnear⟩ := hdir
          rw [parent?_ofLoc] at hparent
          split at hparent
          · cases hparent
          · obtain rfl := Option.some.inj hparent
            exact ⟨_, rfl, hnear.dropLast⟩
        · exact hm d hd
  | confirm dir below =>
    refine idle_stays fun s hs => ?_
    split at hs
    · obtain rfl := Option.some.inj hs
      exact ⟨hp, fun d hd => hm d (List.mem_cons_of_mem _ hd)⟩
    · cases hs
  | again below =>
    cases below with
    | nil => exact onward_stays hp
    | cons dir below =>
      simp only [Making.perform]
      split
      · next hmkdir =>
        exact hmade (hm dir List.mem_cons_self) hmkdir fun d hd => hm d (List.mem_cons_of_mem _ hd)
      · exact onward_stays ⟨hp, hm⟩

theorem prim_stays (hc : Closed cfg places h) (hp : Checked places p) (below : Loc) (left : List Prim) (prim : Prim) :
    (prim.perform h p below left).Stays cfg places h := by
  have hopen : ∀ loc ∈ h.openRead p, Within places loc := fun loc hloc => hc.links.openRead hp.under hloc
  cases prim with
  | look =>
    refine ⟨hopen, Grown.refl h, fun s hs => ?_, by simp [Prim.perform]⟩
    obtain ⟨-, -, rfl⟩ := Option.map_eq_some_iff.1 hs
    exact hp
  | measure =>
    refine ⟨hopen, Grown.refl h, fun s hs => ?_, by simp [Prim.perform]⟩
    obtain rfl := Option.some.inj hs
    exact hp
  | parents =>
    refine idle_stays fun s hs => ?_
    obtain rfl := Option.some.inj hs
    split
    · exact hp
    · next parent hparent =>
      refine ⟨hp, fun d hd => ?_⟩
      rw [List.mem_singleton.1 hd]
      exact hp.parent hparent
  | create =>
    refine ⟨fun loc hloc => hc.links.openCreate hp.under hloc, grown_create h p, fun s hs => ?_, by simp [Prim.perform]⟩
    simp only [Prim.perform] at hs
    split at hs
    · obtain rfl := Option.some.inj hs
      exact hp
    · cases hs
  | search =>
    refine ⟨fun loc hloc => hc.links.openRead (hp.below below) hloc, Grown.refl h, fun s hs => ?_,
      by simp [Prim.perform]⟩
    obtain rfl := Option.some.inj hs
    exact hp
  | enter =>
    refine ⟨hopen, Grown.refl h, fun s hs => ?_, by simp [Prim.perform]⟩
    simp only [Prim.perform] at hs
    split at hs
    · obtain rfl := Option.some.inj hs
      exact hp
    · cases hs
  | settle =>
    refine ⟨by simp [Prim.perform], Grown.refl h, fun s hs => ?_, fun q hq => ?_⟩
    · obtain rfl := Option.some.inj hs
      exact hp
    · obtain rfl := Option.some.inj hq
      exact hp

theorem stage_stays (hroots : cfg.allowedRoots ≠ []) (hc : Closed cfg places h) (op : Op) (below : Loc) {s : Stage}
    (hs : s.Fits cfg places) : (s.perform cfg op h below).Stays cfg places h := by
  cases s with
  | check c =>
    have hnext : (c.next cfg h).Fits cfg places := next_fits hroots hc hs
    simp only [Stage.perform]
    cases hverdict : c.next cfg h with
    | refused => exact idle_stays fun s hs => (by cases hs)
    | on c' =>
      rw [hverdict] at hnext
      exact onward_stays hnext
    | passed p =>
      rw [hverdict] at hnext
      exact onward_stays hnext
  | make p m left => exact making_stays hc hs.1 left hs.2
  | disk p left =>
    cases left with
    | nil => exact idle_stays fun s hs => (by cases hs)
    | cons prim left => exact prim_stays hc hs below left prim

/-! ## Runs -/

/-- The directory of a session is the one it began in, or one that was let through. -/
theorem Inv.cwd (hw : Inv cfg places w) (session : String) :
    w.cwd cfg session = cfg.initialCwd ∨ Checked places (w.cwd cfg session) := by
  unfold World.cwd
  cases hlookup : w.cwds.lookup session with
  | none => exact .inl rfl
  | some cwd =>
    obtain ⟨l₁, l₂, hcwds, -⟩ := List.lookup_eq_some_iff.1 hlookup
    exact .inr (hw.cwds (session, cwd) (by simp [hcwds]))

theorem Inv.absolute (hw : Inv cfg places w) (hcwd : cfg.initialCwd.absolute = true) (session : String) (path : Path) :
    (absolutize path (w.cwd cfg session)).absolute = true := by
  unfold absolutize
  split
  · next habs => exact habs
  · show (w.cwd cfg session).absolute = true
    obtain hinitial | hchecked := hw.cwd session
    · rw [hinitial]
      exact hcwd
    · exact hchecked.absolute

theorem inv_step {a : Act} (hroots : cfg.allowedRoots ≠ []) (hcwd : cfg.initialCwd.absolute = true) (hw : Inv cfg places w)
    (houtside : a.isOutside = true → Closed cfg places w'.host) (hstep : step cfg w a = some w') :
    Inv cfg places w' ∧ ∀ loc ∈ touched cfg w a, Within places loc := by
  cases a with
  | call session op path =>
    obtain rfl := Option.some.inj hstep
    refine ⟨{ hw with calls := fun c hc => ?_ }, by simp [touched]⟩
    obtain hc | hc := List.mem_append.1 hc
    · exact hw.calls c hc
    · rw [List.mem_singleton.1 hc]
      exact hw.absolute hcwd session _
  | go i below =>
    obtain ⟨c, hi, rfl⟩ := Option.map_eq_some_iff.1 hstep
    have hstays := stage_stays hroots hw.closed c.op below (hw.calls c (List.mem_of_getElem? hi))
    refine ⟨⟨hw.closed.grow hstays.grown, fun d hd => ?_, fun e he => ?_⟩, ?_⟩
    · obtain hd | hd := List.mem_append.1 hd
      · exact hw.calls d (List.mem_of_mem_eraseIdx hd)
      · obtain ⟨s, hs, rfl⟩ := List.mem_map.1 hd
        exact hstays.next s (Option.mem_toList.1 hs)
    · obtain he | he := List.mem_append.1 he
      · obtain ⟨p, hp, rfl⟩ := List.mem_map.1 he
        exact hstays.dir p (Option.mem_toList.1 hp)
      · exact hw.cwds e he
    · simpa [touched, hi] using hstays.touched
  | ends i =>
    obtain rfl := Option.some.inj hstep
    exact ⟨{ hw with calls := fun c hc => hw.calls c (List.mem_of_mem_eraseIdx hc) }, by simp [touched]⟩
  | outside entries =>
    obtain rfl := Option.some.inj hstep
    exact ⟨{ hw with closed := houtside rfl }, by simp [touched]⟩

/-- Whatever the sessions call, in whatever order their system calls come and whatever becomes of the disk in between:
as long as the roots stay where they are and no link within them leads out of them or nowhere, all that a call
opens, makes or searches lies within the roots, the calls themselves keep that so, and every directory a session has
changed to lies within the roots. -/
theorem confined_run {acts : List Act} (hroots : cfg.allowedRoots ≠ []) (hcwd : cfg.initialCwd.absolute = true)
    (hclosed : Closed cfg places h)
    (houtside : Steps.AllSteps (step cfg) (fun _ a w' => a.isOutside = true → Closed cfg places w'.host) (start h) acts) :
    Steps.AllSteps (step cfg) (fun w a w' => (∀ loc ∈ touched cfg w a, Within places loc) ∧ Closed cfg places w'.host ∧
      ∀ session, w'.cwd cfg session = cfg.initialCwd ∨ Checked places (w'.cwd cfg session)) (start h) acts := by
  have hstart : Inv cfg places (start h) := ⟨hclosed, by simp [start], by simp [start]⟩
  refine Steps.AllSteps.guarded (fun w a w' hw houtside hstep => ?_) hstart houtside
  obtain ⟨hw', htouched⟩ := inv_step hroots hcwd hw houtside hstep
  exact ⟨hw', htouched, hw'.closed, hw'.cwd⟩

/-- The root `w` with a file, a link to it and what is given besides; and another directory. -/
def testHost (more : List (String × Node)) : Host where
  entries := [("w", .dir ([("f", .file), ("l", .link (.ofLoc ["w", "f"]))] ++ more)), ("out", .dir [])]
  dir := []
  maxLinks := 40
  refuses := fun _ => false
  refuses_below _ _ _ h := h

def testCfg : Cfg := { home := none, allowedRoots := [.ofLoc ["w"]], initialCwd := .ofLoc ["w"] }

theorem testHost_link {more : List (String × Node)} (hmore : more = [] ∨ more = [("d", .dir [])]) {loc : Loc}
    {target : Path} (hlink : (testHost more).tree.find loc = some (.link target)) : loc = ["w", "l"] := by
  have hempty (l : Loc) : (Node.dir []).find l ≠ some (.link target) := find_emptyDir l target
  have hfile (l : Loc) : Node.file.find l ≠ some (.link target) := find_file l target
  cases loc with
  | nil => cases hlink
  | cons n loc =>
    by_cases hw : n = "w"
    · subst hw
      cases loc with
      | nil => cases hlink
      | cons m loc =>
        simp only [testHost, Host.tree, Node.find, List.cons_append, List.nil_append, List.lookup_cons, beq_self_eq_true,
          Option.bind_some] at hlink
        by_cases hf : m = "f"
        · subst hf
          exact absurd hlink (hfile loc)
        · by_cases hl : m = "l"
          · subst hl
            cases loc with
            | nil => rfl
            | cons x loc => cases hlink
          · rw [beq_false_of_ne hf, beq_false_of_ne hl] at hlink
            obtain rfl | rfl := hmore
            · cases hlink
            · by_cases hd : m = "d"
              · subst hd
                exact absurd hlink (hempty loc)
              · simp [List.lookup_cons, beq_false_of_ne hd] at hlink
    · by_cases hout : n = "out"
      · subst hout
        exact absurd hlink (hempty loc)
      · simp [testHost, Host.tree, Node.find, List.lookup_cons, beq_false_of_ne hw, beq_false_of_ne hout] at hlink

/-- One link, and it leads to the file beside it. -/
theorem testHost_closed {more : List (String × Node)} (hmore : more = [] ∨ more = [("d", .dir [])]) :
    Closed testCfg [["w"]] (testHost more) := by
  refine ⟨fun root hroot => ⟨["w"], List.mem_singleton.2 rfl, ?_⟩, fun r hr => ?_, fun loc target hlink _ => ?_⟩
  · obtain rfl := List.mem_singleton.1 hroot
    obtain rfl | rfl := hmore <;> rfl
  · obtain rfl := List.mem_singleton.1 hr
    exact ⟨_, rfl, rfl⟩
  · obtain rfl := testHost_link hmore hlink
    exact ⟨["w", "f"], by obtain rfl | rfl := hmore <;> rfl, ["w"], List.mem_singleton.2 rfl, by decide⟩

/-- A file is to be written into `d`, and meanwhile the link is read. -/
def testEarly : List Act :=
  [.call "a" .write "d/x".toList, .call "b" .read "l".toList] ++ List.replicate 7 (.go 0 [])

def testActs : List Act :=
  testEarly ++ .outside (testHost []).entries :: List.replicate 6 (.go 0 [])

theorem testEarly_run :
    Steps.exec (step testCfg) (start (testHost [("d", .dir [])])) testEarly = some
      { host := testHost [("d", .dir [])], cwds := []
        calls := [{ session := "b", op := .read, stage := .disk (.ofLoc ["w", "f"]) [.look] },
          { session := "a", op := .write, stage := .disk (.ofLoc ["w", "d", "x"]) [.parents, .create] }] } := by
  rfl

/-- The directory is gone when the file is to be written, and is made again. -/
theorem confined_run_sample :
    Steps.AllSteps (step testCfg) (fun w a _ => ∀ loc ∈ touched testCfg w a, Within [["w"]] loc)
        (start (testHost [("d", .dir [])])) testActs ∧
      Steps.collect (step testCfg) (fun w a _ => touched testCfg w a) (start (testHost [("d", .dir [])])) testActs =
        [["w", "f"], ["w", "d"], ["w", "d", "x"]] := by
  have hclosed : Closed testCfg [["w"]] (testHost [("d", .dir [])]) := testHost_closed (.inr rfl)
  have hinside (w : World) (acts : List Act) (hacts : ∀ a ∈ acts, a.isOutside = false) :
      Steps.AllSteps (step testCfg) (fun _ a w' => a.isOutside = true → Closed testCfg [["w"]] w'.host) w acts :=
    (Steps.AllSteps.of_mem hacts w).mono fun _ a _ _ hfalse htrue => absurd (hfalse.symm.trans htrue) (by decide)
  have houtside : Steps.AllSteps (step testCfg) (fun _ a w' => a.isOutside = true → Closed testCfg [["w"]] w'.host)
      (start (testHost [("d", .dir [])])) testActs := by
    refine (Steps.allSteps_append testEarly_run).2 ⟨hinside _ _ (by decide), fun w' hw' => ⟨fun _ => ?_, ?_⟩⟩
    · obtain rfl := Option.some.inj hw'
      exact testHost_closed (.inl rfl)
    · exact hinside _ _ (by decide)
  refine ⟨?_, by decide +kernel⟩
  exact (confined_run (by decide) rfl hclosed houtside).mono fun _ _ _ _ h => h.1

end OhMyClaw.Sandbox
