import Mathlib.Data.List.DropRight

/-!
# Paths and their resolution

A file system is a tree of directories, files and symbolic links.  A path is the list of what
stands between its slashes; the system resolves it name by name from the root or from the
process's directory, follows the links it meets, and looks nothing up but in a directory.

    walk_found           what a path resolves to is there and is no link
    walk_names           the names of a place lead to it, without a link on the way

The lexical operations (`parent?`, `fileName?`, `join`, `startsWith`) are those of a path library
that drops `.` and repeated slashes and never looks at the file system.
-/

namespace Posix

/-- What stands between two slashes; an empty segment and `.` both stay where they are. -/
inductive Seg where
  | here
  | up
  | name (n : String)
deriving DecidableEq, Repr

structure Path where
  absolute : Bool
  segs : List Seg
deriving DecidableEq, Repr

/-- A place in the tree: the names that lead to it from the root. -/
abbrev Loc := List String

inductive Node where
  | file
  | dir (entries : List (String × Node))
  | link (target : Path)

/-! ## Paths as text -/

def Seg.ofChars (s : List Char) : Seg :=
  if s = [] ∨ s = ['.'] then .here
  else if s = ['.', '.'] then .up
  else .name (String.ofList s)

/-- The empty path has no segments. -/
def Path.ofChars (s : List Char) : Path :=
  match s with
  | [] => { absolute := false, segs := [] }
  | '/' :: rest => { absolute := true, segs := (rest.splitOn '/').map Seg.ofChars }
  | _ => { absolute := false, segs := (s.splitOn '/').map Seg.ofChars }

namespace Path

def empty : Path := { absolute := false, segs := [] }

/-- The path of a place. -/
def ofLoc (loc : Loc) : Path := { absolute := true, segs := loc.map .name }

/-- Without the trailing slashes and dots; the dot a relative path starts with stays. -/
def trimmed (p : Path) : Path :=
  match p.absolute, p.segs with
  | false, .here :: rest => { p with segs := .here :: rest.rdropWhile (· = .here) }
  | _, segs => { p with segs := segs.rdropWhile (· = .here) }

def parent? (p : Path) : Option Path :=
  if p.trimmed.segs = [] then none
  else some { p with segs := p.trimmed.segs.dropLast }.trimmed

def fileName? (p : Path) : Option String :=
  match p.trimmed.segs.getLast? with
  | some (.name n) => some n
  | _ => none

/-- `q` behind `p`; an empty `q` leaves a trailing slash. -/
def join (p q : Path) : Path :=
  { p with segs := p.segs ++ if q.segs = [] ∧ p.segs ≠ [] then [.here] else q.segs }

/-- What is compared when paths are compared. -/
def components (p : Path) : List Seg :=
  match p.absolute, p.segs with
  | false, .here :: rest => .here :: rest.filter (· ≠ .here)
  | _, segs => segs.filter (· ≠ .here)

def startsWith (p q : Path) : Bool :=
  (!q.absolute && q.components.isEmpty) || (p.absolute = q.absolute && q.components.isPrefixOf p.components)

end Path

/-! ## Resolution -/

def Node.find : Node → Loc → Option Node
  | node, [] => some node
  | .dir entries, n :: loc => (entries.lookup n).bind fun node => node.find loc
  | _, _ :: _ => none

def Node.isDir : Node → Bool
  | .dir _ => true
  | _ => false

def Node.isLink : Node → Bool
  | .link _ => true
  | _ => false

/-- How the resolution of a path ends: at an object; at a name that is not in its directory, with or
without a slash behind it; at a name that is missing ahead of the last; or refused. -/
inductive Walked where
  | found (loc : Loc)
  | missing (dir : Loc) (name : String) (slash : Bool)
  | lost
  | refused
deriving DecidableEq, Repr

/-- Go on from the place `cur`; a link is left to `onLink`. -/
def follow (t : Node) (onLink : Loc → List Seg → Walked) : Loc → List Seg → Walked
  | cur, [] => .found cur
  | cur, seg :: rest =>
    if (t.find cur).any Node.isDir then
      match seg with
      | .here => follow t onLink cur rest
      | .up => follow t onLink cur.dropLast rest
      | .name n =>
        match t.find (cur ++ [n]) with
        | none => if rest.all (· = .here) then .missing cur n (!rest.isEmpty) else .lost
        | some (.link target) =>
          if target = .empty then .lost
          else onLink (if target.absolute then [] else cur) (target.segs ++ rest)
        | some _ => follow t onLink (cur ++ [n]) rest
    else .refused

/-- Resolution that follows at most as many links as its first argument says. -/
def walk (t : Node) : Nat → Loc → List Seg → Walked
  | 0 => follow t fun _ _ => .refused
  | k + 1 => follow t (walk t k)

/-- A file system and a process in it.  `refuses` says which paths are refused as they stand: one
that is too long, say, and then everything below it. -/
structure Host where
  entries : List (String × Node)
  dir : Loc
  maxLinks : Nat
  refuses : Path → Bool
  refuses_below : ∀ p q, p.parent? = some q → refuses q = true → refuses p = true

namespace Host

variable (h : Host)

def tree : Node := .dir h.entries

def isDir (loc : Loc) : Bool := (h.tree.find loc).any Node.isDir

def start (p : Path) : Loc := if p.absolute then [] else h.dir

def locate (p : Path) : Walked :=
  if h.refuses p then .refused
  else if p = .empty then .lost
  else walk h.tree h.maxLinks (h.start p) p.segs

/-- What a path that resolves leads to. -/
def resolve? (p : Path) : Option Loc :=
  match h.locate p with
  | .found loc => some loc
  | _ => none

end Host

/-! ## What a process does with a path -/

/-- A new directory `n` in the directory `loc`. -/
def insertDir : List (String × Node) → Loc → String → List (String × Node)
  | entries, [], n => (n, .dir []) :: entries
  | entries, m :: loc, n => entries.map fun e =>
    match e.2 with
    | .dir below => if e.1 = m then (m, .dir (insertDir below loc n)) else e
    | _ => e

inductive Made where
  | made (h : Host) (loc : Loc)
  | present
  | absent
  | refused

namespace Host

variable (h : Host)

/-- Make a directory; a link in its place is not followed. -/
def mkdir (p : Path) : Made :=
  if h.refuses p then .refused
  else
    match p.trimmed.segs.getLast? with
    | some (.name n) =>
      match walk h.tree h.maxLinks (h.start p) p.trimmed.segs.dropLast with
      | .found d =>
        if h.isDir d then
          match h.tree.find (d ++ [n]) with
          | none => .made { h with entries := insertDir h.entries d n } (d ++ [n])
          | some _ => .present
        else .refused
      | .refused => .refused
      | _ => .absent
    | _ =>
      match h.locate p with
      | .found _ => .present
      | .refused => .refused
      | _ => .absent

/-- The path leads to a directory. -/
def isDirAt (p : Path) : Bool := (h.resolve? p).any h.isDir

end Host

structure Creation where
  host : Host
  made : List Loc
  ok : Bool

/-- Make a directory and those above it that are missing; the fuel bounds how many. -/
def createDirAll : Nat → Host → Path → Creation
  | 0, h, _ => { host := h, made := [], ok := false }
  | fuel + 1, h, p =>
    if p = .empty then { host := h, made := [], ok := true }
    else
      match h.mkdir p with
      | .made h' loc => { host := h', made := [loc], ok := true }
      | .present => { host := h, made := [], ok := h.isDirAt p }
      | .refused => { host := h, made := [], ok := h.isDirAt p }
      | .absent =>
        match p.parent? with
        | none => { host := h, made := [], ok := false }
        | some parent =>
          let c := createDirAll fuel h parent
          if c.ok then
            match c.host.mkdir p with
            | .made h' loc => { host := h', made := c.made ++ [loc], ok := true }
            | _ => { c with ok := c.host.isDirAt p }
          else c

namespace Host

variable (h : Host)

/-- The object that opening a path for reading opens. -/
def openRead (p : Path) : List Loc := (h.resolve? p).toList

/-- The object that opening a path for writing opens, or creates if there is none. -/
def openCreate (p : Path) : List Loc :=
  match h.locate p with
  | .found loc => if h.isDir loc then [] else [loc]
  | .missing d n false => [d ++ [n]]
  | _ => []

end Host

/-! ## Places -/

theorem find_append (t : Node) (a b : Loc) : t.find (a ++ b) = (t.find a).bind fun node => node.find b := by
  induction a generalizing t with
  | nil => rfl
  | cons n a ih =>
    cases t with
    | file => rfl
    | link target => rfl
    | dir entries =>
      simp only [List.cons_append, Node.find]
      cases entries.lookup n with
      | none => rfl
      | some node => exact ih node

/-- There is something at the place, and it is no link. -/
def Real (t : Node) (loc : Loc) : Prop := ∃ node, t.find loc = some node ∧ node.isLink = false

theorem isDir_of_find {t : Node} {loc : Loc} {n : String} {below : Loc} {node : Node}
    (h : t.find (loc ++ n :: below) = some node) : (t.find loc).any Node.isDir = true := by
  rw [find_append] at h
  obtain ⟨mid, hmid, hbelow⟩ := Option.bind_eq_some_iff.1 h
  rw [hmid]
  cases mid with
  | dir entries => rfl
  | file => simp [Node.find] at hbelow
  | link target => simp [Node.find] at hbelow

theorem real_of_isDir {t : Node} {loc : Loc} (h : (t.find loc).any Node.isDir = true) : Real t loc := by
  cases hfind : t.find loc with
  | none => simp [hfind] at h
  | some node =>
    refine ⟨node, hfind, ?_⟩
    cases node with
    | link target => simp [hfind, Node.isDir] at h
    | file => rfl
    | dir entries => rfl

theorem isDir_dropLast {t : Node} {loc : Loc} (h : (t.find loc).any Node.isDir = true) :
    (t.find loc.dropLast).any Node.isDir = true := by
  rcases List.eq_nil_or_concat loc with rfl | ⟨init, n, rfl⟩
  · exact h
  · obtain ⟨node, hnode, -⟩ := real_of_isDir h
    rw [List.concat_eq_append] at hnode ⊢
    rw [List.dropLast_concat]
    exact isDir_of_find hnode

/-- What a path resolves to is there and is no link. -/
theorem follow_found {t : Node} {onLink : Loc → List Seg → Walked}
    (honLink : ∀ cur segs loc, Real t cur → onLink cur segs = .found loc → Real t loc)
    (hroot : Real t []) {cur : Loc} {segs : List Seg} {loc : Loc} (hcur : Real t cur)
    (h : follow t onLink cur segs = .found loc) : Real t loc := by
  induction segs generalizing cur with
  | nil =>
    obtain rfl : cur = loc := Walked.found.inj h
    exact hcur
  | cons seg rest ih =>
    by_cases hdir : (t.find cur).any Node.isDir = true
    · simp only [follow, if_pos hdir] at h
      cases seg with
      | here => exact ih hcur h
      | up => exact ih (real_of_isDir (isDir_dropLast hdir)) h
      | name n =>
        simp only at h
        split at h
        · split at h <;> simp at h
        · split at h
          · simp at h
          · refine honLink _ _ _ ?_ h
            split
            · exact hroot
            · exact hcur
        · next node hlink hfind =>
          refine ih ⟨node, hfind, ?_⟩ h
          cases node with
          | link target => exact absurd rfl (hlink target)
          | file => rfl
          | dir entries => rfl
    · simp [follow, hdir] at h

theorem walk_found {t : Node} (hroot : Real t []) {k : Nat} {cur : Loc} {segs : List Seg} {loc : Loc}
    (hcur : Real t cur) (h : walk t k cur segs = .found loc) : Real t loc := by
  induction k generalizing cur segs loc with
  | zero =>
    refine follow_found ?_ hroot hcur h
    intro _ _ _ _ hrefused
    simp at hrefused
  | succ k ih => exact follow_found (fun _ _ _ => ih) hroot hcur h

/-- The names of a place lead to it. -/
theorem follow_names {t : Node} {onLink : Loc → List Seg → Walked} {cur loc : Loc}
    (h : Real t (cur ++ loc)) (rest : List Seg) :
    follow t onLink cur (loc.map .name ++ rest) = follow t onLink (cur ++ loc) rest := by
  induction loc generalizing cur with
  | nil => rw [List.append_nil, List.map_nil, List.nil_append]
  | cons n loc ih =>
    have hassoc : cur ++ n :: loc = (cur ++ [n]) ++ loc := by simp
    obtain ⟨node, hnode, hlink⟩ := h
    have hdir := isDir_of_find hnode
    have hnext : ∃ next, t.find (cur ++ [n]) = some next ∧ next.isLink = false := by
      cases loc with
      | nil => exact ⟨node, hnode, hlink⟩
      | cons m loc =>
        rw [hassoc] at hnode
        exact real_of_isDir (isDir_of_find hnode)
    obtain ⟨next, hnext, hnotLink⟩ := hnext
    rw [List.map_cons, List.cons_append, follow, if_pos hdir]
    rw [hassoc] at hnode ⊢
    rw [← ih ⟨node, hnode, hlink⟩]
    simp only [hnext]
    cases next with
    | link target => simp [Node.isLink] at hnotLink
    | file => rfl
    | dir entries => rfl

theorem walk_names {t : Node} {k : Nat} {loc : Loc} (h : Real t loc) (rest : List Seg) :
    walk t k [] (loc.map .name ++ rest) = walk t k loc rest := by
  cases k with
  | zero => exact follow_names h rest
  | succ k => exact follow_names h rest

theorem walk_here (t : Node) (k : Nat) (cur : Loc) :
    walk t k cur [.here] = if (t.find cur).any Node.isDir then .found cur else .refused := by
  cases k <;> rfl

/-- A last name that is no link leads to where it stands, or is missing there. -/
theorem walk_name {t : Node} {k : Nat} {cur : Loc} {n : String}
    (h : ∀ target, t.find (cur ++ [n]) ≠ some (.link target)) :
    walk t k cur [.name n] =
      if (t.find cur).any Node.isDir then
        if (t.find (cur ++ [n])).isSome then .found (cur ++ [n]) else .missing cur n false
      else .refused := by
  have hfollow (onLink : Loc → List Seg → Walked) : follow t onLink cur [.name n] =
      if (t.find cur).any Node.isDir then
        if (t.find (cur ++ [n])).isSome then .found (cur ++ [n]) else .missing cur n false
      else .refused := by
    cases hfind : t.find (cur ++ [n]) with
    | none => simp [follow, hfind]
    | some node =>
      cases node with
      | link target => exact absurd hfind (h target)
      | file => simp [follow, hfind]
      | dir entries => simp [follow, hfind]
  cases k with
  | zero => exact hfollow _
  | succ k => exact hfollow _

theorem walk_nil (t : Node) (k : Nat) (cur : Loc) : walk t k cur [] = .found cur := by
  cases k <;> rfl

/-! ## Paths of places -/

theorem trimmed_ofLoc (loc : Loc) : (Path.ofLoc loc).trimmed = .ofLoc loc := by
  have hlast : (loc.map Seg.name).rdropWhile (· = .here) = loc.map .name := by
    rw [List.rdropWhile_eq_self_iff]
    intro hne
    rw [List.getLast_map]
    simp
  simp only [Path.trimmed, Path.ofLoc, hlast]

theorem parent?_ofLoc (loc : Loc) :
    (Path.ofLoc loc).parent? = if loc = [] then none else some (.ofLoc loc.dropLast) := by
  have hsegs : (Path.ofLoc loc).trimmed.segs = loc.map .name := by rw [trimmed_ofLoc]; rfl
  unfold Path.parent?
  rw [hsegs]
  by_cases hnil : loc = []
  · simp [hnil]
  · have hdrop : { Path.ofLoc loc with segs := (loc.map Seg.name).dropLast } = .ofLoc loc.dropLast := by
      simp [Path.ofLoc, List.map_dropLast]
    simp [hnil, hdrop, trimmed_ofLoc]

theorem components_ofLoc (loc : Loc) : (Path.ofLoc loc).components = loc.map .name := by
  simp only [Path.components, Path.ofLoc]
  rw [List.filter_eq_self]
  intro seg hseg
  obtain ⟨n, -, rfl⟩ := List.mem_map.1 hseg
  simp

namespace Host

variable {h : Host}

theorem real_root (h : Host) : Real h.tree [] := ⟨_, rfl, rfl⟩

theorem resolve?_eq_some {p : Path} {loc : Loc} :
    h.resolve? p = some loc ↔ h.locate p = .found loc := by
  unfold resolve?
  cases h.locate p <;> simp

theorem locate_of_ne_refused {p : Path} (hp : h.locate p ≠ .refused) (hne : p ≠ .empty) :
    h.locate p = walk h.tree h.maxLinks (h.start p) p.segs := by
  unfold locate at hp ⊢
  by_cases hrefuses : h.refuses p = true
  · simp [hrefuses] at hp
  · rw [if_neg hrefuses, if_neg hne]

theorem walk_of_not_isDir {t : Node} {k : Nat} {cur : Loc} {segs : List Seg}
    (hdir : ¬ (t.find cur).any Node.isDir = true) (hsegs : segs ≠ []) : walk t k cur segs = .refused := by
  obtain ⟨seg, rest, rfl⟩ := List.exists_cons_of_ne_nil hsegs
  cases k <;> simp [walk, follow, hdir]

/-- What a path resolves to is there and is no link. -/
theorem real_of_resolve? {p : Path} {loc : Loc} (hp : h.resolve? p = some loc) : Real h.tree loc := by
  have hfound := resolve?_eq_some.1 hp
  have hne : p ≠ .empty := by
    rintro rfl
    unfold locate at hfound
    split at hfound <;> simp at hfound
  have hwalk := locate_of_ne_refused (h := h) (by simp [hfound]) hne
  rw [hfound] at hwalk
  by_cases hstart : h.isDir (h.start p) = true
  · exact walk_found h.real_root (real_of_isDir hstart) hwalk.symm
  · cases habs : p.absolute with
    | true => simp [start, habs, isDir, tree, Node.find, Node.isDir] at hstart
    | false =>
      have hsegs : p.segs ≠ [] := by
        rintro hnil
        obtain ⟨absolute, segs⟩ := p
        exact hne (by simp_all [Path.empty])
      rw [walk_of_not_isDir hstart hsegs] at hwalk
      simp at hwalk

/-- Behind the names of a place, resolution goes on from there. -/
theorem locate_names {dir : Loc} (hreal : Real h.tree dir) (segs : List Seg)
    (hp : h.locate { absolute := true, segs := dir.map .name ++ segs } ≠ .refused) :
    h.locate { absolute := true, segs := dir.map .name ++ segs } = walk h.tree h.maxLinks dir segs := by
  have hne : { absolute := true, segs := dir.map .name ++ segs } ≠ Path.empty := by simp [Path.empty]
  rw [locate_of_ne_refused hp hne]
  exact walk_names hreal segs

theorem resolve?_ofLoc {loc : Loc} (hreal : Real h.tree loc) (hp : h.refuses (.ofLoc loc) = false) :
    h.resolve? (.ofLoc loc) = some loc := by
  have hnames := walk_names (k := h.maxLinks) hreal []
  rw [List.append_nil, walk_nil] at hnames
  rw [resolve?_eq_some]
  unfold locate
  rw [if_neg (by simp [hp]), if_neg (by simp [Path.ofLoc, Path.empty])]
  exact hnames

theorem mkdir_ofLoc {loc : Loc} (hreal : Real h.tree loc) :
    h.mkdir (.ofLoc loc) = .present ∨ h.mkdir (.ofLoc loc) = .refused := by
  unfold mkdir
  by_cases hrefuses : h.refuses (.ofLoc loc) = true
  · exact Or.inr (by simp [hrefuses])
  left
  have hsegs : (Path.ofLoc loc).trimmed.segs = loc.map .name := by rw [trimmed_ofLoc]; rfl
  rw [if_neg hrefuses, hsegs]
  rcases List.eq_nil_or_concat loc with rfl | ⟨init, n, rfl⟩
  · have hroot := resolve?_eq_some.1 (resolve?_ofLoc h.real_root (by simpa using hrefuses))
    simp [hroot]
  · rw [List.concat_eq_append] at hreal ⊢
    obtain ⟨node, hnode, -⟩ := hreal
    have hdir := isDir_of_find hnode
    have hwalk : walk h.tree h.maxLinks (h.start (.ofLoc (init ++ [n]))) (init.map .name) = .found init := by
      have hnames := walk_names (k := h.maxLinks) (real_of_isDir hdir) []
      rw [List.append_nil, walk_nil] at hnames
      exact hnames
    have hisDir : h.isDir init = true := hdir
    simp only [List.map_append, List.map_cons, List.map_nil, List.getLast?_concat, List.dropLast_concat,
      hwalk, hisDir, if_true, hnode]

/-- Where something is there, no directory is missing. -/
theorem createDirAll_ofLoc {loc : Loc} (hreal : Real h.tree loc) (fuel : Nat) :
    createDirAll (fuel + 1) h (.ofLoc loc) =
      { host := h, made := [], ok := h.isDirAt (.ofLoc loc) } := by
  have hne : Path.ofLoc loc ≠ .empty := by simp [Path.ofLoc, Path.empty]
  rcases mkdir_ofLoc hreal with hmkdir | hmkdir
  · simp [createDirAll, hne, hmkdir]
  · simp [createDirAll, hne, hmkdir]

end Host

end Posix
