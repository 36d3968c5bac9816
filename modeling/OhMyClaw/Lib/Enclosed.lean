import OhMyClaw.Lib.Posix

/-!
# Places that links do not leave

Some places of a file system, with all that is below them, are sealed if no link below them leads out of them or
nowhere.  Whoever goes down from one of them by names then stays within them, through however many links; and what
is made there, directories and files, keeps them sealed.

    walk_append        a walk goes on from where its first part has led
    Sealed.walk        names lead from a place within to places within
    Sealed.grow        a tree that grows stays sealed
-/

namespace Posix

/-! ## Walks -/

/-- What is left of a walk at a link. -/
def linkWalk (t : Node) : Nat → Loc → List Seg → Walked
  | 0 => fun _ _ => .refused
  | k + 1 => walk t k

variable {t t' : Node} {k : Nat} {cur : Loc} {rest : List Seg}

theorem walk_eq (t : Node) (k : Nat) : walk t k = follow t (linkWalk t k) := by
  cases k <;> rfl

theorem walk_cons_here (hdir : (t.find cur).any Node.isDir = true) :
    walk t k cur (.here :: rest) = walk t k cur rest := by
  rw [walk_eq, follow, if_pos hdir]

theorem walk_cons_up (hdir : (t.find cur).any Node.isDir = true) :
    walk t k cur (.up :: rest) = walk t k cur.dropLast rest := by
  rw [walk_eq, follow, if_pos hdir]

theorem walk_cons_missing {n : String} (hdir : (t.find cur).any Node.isDir = true) (hn : t.find (cur ++ [n]) = none) :
    walk t k cur (.name n :: rest) = if rest.all (· = .here) then .missing cur n (!rest.isEmpty) else .lost := by
  rw [walk_eq, follow, if_pos hdir]
  simp only [hn]

theorem walk_cons_link {n : String} {target : Path} (hdir : (t.find cur).any Node.isDir = true)
    (hn : t.find (cur ++ [n]) = some (.link target)) :
    walk t k cur (.name n :: rest) =
      if target = .empty then .lost else linkWalk t k (if target.absolute then [] else cur) (target.segs ++ rest) := by
  rw [walk_eq, follow, if_pos hdir]
  simp only [hn]

theorem walk_cons_name {n : String} {node : Node} (hdir : (t.find cur).any Node.isDir = true)
    (hn : t.find (cur ++ [n]) = some node) (hlink : node.isLink = false) :
    walk t k cur (.name n :: rest) = walk t k (cur ++ [n]) rest := by
  rw [walk_eq, follow, if_pos hdir]
  simp only [hn]
  cases node with
  | link target => simp [Node.isLink] at hlink
  | file | dir entries => rfl

theorem walk_cons_of_not_isDir {seg : Seg} (hdir : ¬ (t.find cur).any Node.isDir = true) :
    walk t k cur (seg :: rest) = .refused :=
  Host.walk_of_not_isDir hdir (by simp)

/-- Along a walk: segment by segment, and behind a link whatever is left of it. -/
theorem walk_induction (t : Node) {motive : Nat → Loc → List Seg → Prop} (nil : ∀ k cur, motive k cur [])
    (barred : ∀ k cur seg rest, ¬ (t.find cur).any Node.isDir = true → motive k cur (seg :: rest))
    (here : ∀ k cur rest, (t.find cur).any Node.isDir = true → motive k cur rest → motive k cur (.here :: rest))
    (up : ∀ k cur rest, (t.find cur).any Node.isDir = true → motive k cur.dropLast rest → motive k cur (.up :: rest))
    (missing : ∀ k cur n rest, (t.find cur).any Node.isDir = true → t.find (cur ++ [n]) = none →
      motive k cur (.name n :: rest))
    (link : ∀ k cur n target rest, (t.find cur).any Node.isDir = true → t.find (cur ++ [n]) = some (.link target) →
      (∀ j < k, ∀ cur segs, motive j cur segs) → motive k cur (.name n :: rest))
    (name : ∀ k cur n node rest, (t.find cur).any Node.isDir = true → t.find (cur ++ [n]) = some node →
      node.isLink = false → motive k (cur ++ [n]) rest → motive k cur (.name n :: rest))
    (k : Nat) (cur : Loc) (segs : List Seg) : motive k cur segs := by
  induction k using Nat.strongRecOn generalizing cur segs with
  | ind k ihk =>
    induction segs generalizing cur with
    | nil => exact nil k cur
    | cons seg rest ih =>
      by_cases hdir : (t.find cur).any Node.isDir = true
      · cases seg with
        | here => exact here k cur rest hdir (ih cur)
        | up => exact up k cur rest hdir (ih _)
        | name n =>
          cases hn : t.find (cur ++ [n]) with
          | none => exact missing k cur n rest hdir hn
          | some node =>
            by_cases hlink : node.isLink = true
            · cases node with
              | link target => exact link k cur n target rest hdir hn ihk
              | file | dir entries => cases hlink
            · exact name k cur n node rest hdir hn (by simpa using hlink) (ih _)
      · exact barred k cur seg rest hdir

/-- A walk that may follow more links, or fewer, gets to the same place or is refused. -/
theorem walk_budget {j : Nat} {segs : List Seg} {loc : Loc} (h : walk t j cur segs = .found loc) (k : Nat) :
    walk t k cur segs = .found loc ∨ walk t k cur segs = .refused := by
  induction j, cur, segs using walk_induction t generalizing k with
  | nil j cur =>
    rw [walk_nil] at h ⊢
    exact .inl h
  | barred j cur seg rest hdir => exact .inr (walk_cons_of_not_isDir hdir)
  | here j cur rest hdir ih =>
    rw [walk_cons_here hdir] at h ⊢
    exact ih h k
  | up j cur rest hdir ih =>
    rw [walk_cons_up hdir] at h ⊢
    exact ih h k
  | missing j cur n rest hdir hn =>
    rw [walk_cons_missing hdir hn] at h
    split at h <;> cases h
  | link j cur n target rest hdir hn ih =>
    rw [walk_cons_link hdir hn] at h ⊢
    by_cases htarget : target = .empty
    · rw [if_pos htarget] at h
      cases h
    · rw [if_neg htarget] at h ⊢
      cases j with
      | zero => cases h
      | succ j =>
        cases k with
        | zero => exact .inr rfl
        | succ k => exact ih j (Nat.lt_succ_self j) _ _ h k
  | name j cur n node rest hdir hn hlink ih =>
    rw [walk_cons_name hdir hn hlink] at h ⊢
    exact ih h k

/-- A walk goes on from where its first part has led; where that is refused, so is the whole. -/
theorem walk_append (a b : List Seg) :
    (∀ mid, walk t k cur a = .found mid → ∃ j ≤ k, walk t k cur (a ++ b) = walk t j mid b) ∧
      (walk t k cur a = .refused → walk t k cur (a ++ b) = .refused) := by
  induction k, cur, a using walk_induction t with
  | nil k cur =>
    refine ⟨fun mid h => ⟨k, Nat.le_refl k, ?_⟩, fun h => ?_⟩
    · rw [walk_nil] at h
      obtain rfl := Walked.found.inj h
      rfl
    · rw [walk_nil] at h
      cases h
  | barred k cur seg rest hdir =>
    have hall (segs : List Seg) : walk t k cur (seg :: segs) = .refused := walk_cons_of_not_isDir hdir
    refine ⟨fun mid h => ?_, fun _ => hall _⟩
    rw [hall] at h
    cases h
  | here k cur rest hdir ih =>
    rw [List.cons_append, walk_cons_here hdir, walk_cons_here hdir]
    exact ih
  | up k cur rest hdir ih =>
    rw [List.cons_append, walk_cons_up hdir, walk_cons_up hdir]
    exact ih
  | missing k cur n rest hdir hn =>
    rw [walk_cons_missing hdir hn]
    refine ⟨fun mid h => ?_, fun h => ?_⟩ <;> split at h <;> cases h
  | link k cur n target rest hdir hn ih =>
    rw [List.cons_append, walk_cons_link hdir hn, walk_cons_link hdir hn, ← List.append_assoc]
    by_cases htarget : target = .empty
    · rw [if_pos htarget]
      exact ⟨fun mid h => (by cases h), fun h => (by cases h)⟩
    · rw [if_neg htarget, if_neg htarget]
      cases k with
      | zero => exact ⟨fun mid h => (by cases h), fun _ => rfl⟩
      | succ k =>
        obtain ⟨hfound, hrefused⟩ := ih k (Nat.lt_succ_self k) (if target.absolute then [] else cur) (target.segs ++ rest)
        refine ⟨fun mid h => ?_, hrefused⟩
        obtain ⟨j, hj, heq⟩ := hfound mid h
        exact ⟨j, Nat.le_succ_of_le hj, heq⟩
  | name k cur n node rest hdir hn hlink ih =>
    rw [List.cons_append, walk_cons_name hdir hn hlink, walk_cons_name hdir hn hlink]
    exact ih

/-- A name that is missing is not in its directory. -/
theorem walk_missing {segs : List Seg} {d : Loc} {n : String} {slash : Bool}
    (h : walk t k cur segs = .missing d n slash) : t.find (d ++ [n]) = none := by
  induction k, cur, segs using walk_induction t with
  | nil k cur =>
    rw [walk_nil] at h
    cases h
  | barred k cur seg rest hdir =>
    rw [walk_cons_of_not_isDir hdir] at h
    cases h
  | here k cur rest hdir ih =>
    rw [walk_cons_here hdir] at h
    exact ih h
  | up k cur rest hdir ih =>
    rw [walk_cons_up hdir] at h
    exact ih h
  | missing k cur m rest hdir hm =>
    rw [walk_cons_missing hdir hm] at h
    split at h
    · obtain ⟨rfl, rfl, -⟩ := Walked.missing.inj h
      exact hm
    · cases h
  | link k cur m target rest hdir hm ih =>
    rw [walk_cons_link hdir hm] at h
    by_cases htarget : target = .empty
    · rw [if_pos htarget] at h
      cases h
    · rw [if_neg htarget] at h
      cases k with
      | zero => cases h
      | succ k => exact ih k (Nat.lt_succ_self k) _ _ h
  | name k cur m node rest hdir hm hlink ih =>
    rw [walk_cons_name hdir hm hlink] at h
    exact ih h

/-! ## Sealed places -/

/-- The place is one of these or below one. -/
def Within (places : List Loc) (loc : Loc) : Prop := ∃ r ∈ places, r <+: loc

/-- The places are there, and a link within them leads to somewhere within them. -/
structure Sealed (h : Host) (places : List Loc) : Prop where
  real : ∀ r ∈ places, Real h.tree r
  links : ∀ loc target, h.tree.find loc = some (.link target) → Within places loc →
    ∃ l, h.resolve? (.ofLoc loc) = some l ∧ Within places l

variable {h h' : Host} {places : List Loc} {loc : Loc} {p : Path}

theorem Within.append (hloc : Within places loc) (below : Loc) : Within places (loc ++ below) := by
  obtain ⟨r, hr, hpre⟩ := hloc
  exact ⟨r, hr, hpre.trans (List.prefix_append loc below)⟩

/-- Where a link within leads to, by itself. -/
theorem Sealed.link (hs : Sealed h places) {n : String} {target : Path}
    (hn : h.tree.find (cur ++ [n]) = some (.link target)) (hw : Within places (cur ++ [n])) :
    ∃ j l, walk h.tree j (if target.absolute then [] else cur) target.segs = .found l ∧ Within places l := by
  obtain ⟨l, hl, hwithin⟩ := hs.links _ target hn hw
  have hdir : (h.tree.find cur).any Node.isDir = true := isDir_of_find hn
  have hfound := Host.resolve?_eq_some.1 hl
  have hsegs : Path.ofLoc (cur ++ [n]) = { absolute := true, segs := cur.map .name ++ [.name n] } := by simp [Path.ofLoc]
  rw [hsegs] at hfound
  have hnames := Host.locate_names (real_of_isDir hdir) [.name n] (by simp [hfound])
  rw [hfound, walk_cons_link hdir hn] at hnames
  by_cases htarget : target = .empty
  · rw [if_pos htarget] at hnames
    cases hnames
  · rw [if_neg htarget, List.append_nil] at hnames
    cases hk : h.maxLinks with
    | zero =>
      rw [hk] at hnames
      cases hnames
    | succ j =>
      rw [hk] at hnames
      exact ⟨j, l, hnames.symm, hwithin⟩

/-- How a walk ends is within the places. -/
def EndsWithin (places : List Loc) : Walked → Prop
  | .found loc => Within places loc
  | .missing d _ _ => Within places d
  | .lost | .refused => True

/-- Names, and nothing that leads up, lead from a place within to a place within. -/
theorem Sealed.walk (hs : Sealed h places) {segs : List Seg} (hcur : Within places cur) (hdown : ∀ s ∈ segs, s ≠ .up) :
    EndsWithin places (walk h.tree k cur segs) := by
  induction k, cur, segs using walk_induction h.tree with
  | nil k cur =>
    rw [walk_nil]
    exact hcur
  | barred k cur seg rest hdir =>
    rw [walk_cons_of_not_isDir hdir]
    trivial
  | here k cur rest hdir ih =>
    rw [walk_cons_here hdir]
    exact ih hcur fun s hseg => hdown s (List.mem_cons_of_mem _ hseg)
  | up k cur rest hdir ih => exact absurd rfl (hdown .up List.mem_cons_self)
  | missing k cur n rest hdir hn =>
    rw [walk_cons_missing hdir hn]
    split
    · exact hcur
    · trivial
  | link k cur n target rest hdir hn ih =>
    rw [walk_cons_link hdir hn]
    by_cases htarget : target = .empty
    · rw [if_pos htarget]
      trivial
    · rw [if_neg htarget]
      obtain ⟨j₀, l, hl, hwithin⟩ := hs.link hn (hcur.append [n])
      cases k with
      | zero => trivial
      | succ k =>
        show EndsWithin places (Posix.walk h.tree k _ (target.segs ++ rest))
        obtain ⟨hfound, hrefused⟩ :=
          @walk_append h.tree k (if target.absolute then [] else cur) target.segs rest
        obtain hbudget | hbudget := walk_budget hl k
        · obtain ⟨j, hj, heq⟩ := hfound l hbudget
          rw [heq]
          exact ih j (Nat.lt_succ_of_le hj) l rest hwithin fun s hseg => hdown s (List.mem_cons_of_mem _ hseg)
        · rw [hrefused hbudget]
          trivial
  | name k cur n node rest hdir hn hlink ih =>
    rw [walk_cons_name hdir hn hlink]
    exact ih (hcur.append [n]) fun s hseg => hdown s (List.mem_cons_of_mem _ hseg)

/-- The path goes down from one of the places. -/
def Path.Under (places : List Loc) (p : Path) : Prop :=
  p.absolute = true ∧ ∃ loc tail, Within places loc ∧ p.segs = loc.map .name ++ tail ∧ ∀ s ∈ tail, s ≠ .up

theorem Sealed.locate (hs : Sealed h places) (hp : p.Under places) : EndsWithin places (h.locate p) := by
  obtain ⟨habs, loc, tail, ⟨r, hr, below, rfl⟩, hsegs, htail⟩ := hp
  have hpath : p = { absolute := true, segs := r.map .name ++ (below.map .name ++ tail) } := by
    obtain ⟨absolute, segs⟩ := p
    obtain rfl : absolute = true := habs
    simpa using hsegs
  by_cases hrefused : h.locate p = .refused
  · rw [hrefused]
    trivial
  · rw [hpath] at hrefused ⊢
    rw [Host.locate_names (hs.real r hr) _ hrefused]
    refine hs.walk ⟨r, hr, List.prefix_refl r⟩ fun s hseg => ?_
    obtain hseg | hseg := List.mem_append.1 hseg
    · obtain ⟨n, -, rfl⟩ := List.mem_map.1 hseg
      simp
    · exact htail s hseg

theorem Sealed.openRead (hs : Sealed h places) (hp : p.Under places) (hloc : loc ∈ h.openRead p) : Within places loc := by
  have hends := hs.locate hp
  have hfound := Host.resolve?_eq_some.1 (Option.mem_toList.1 hloc)
  rwa [hfound] at hends

theorem Sealed.openCreate (hs : Sealed h places) (hp : p.Under places) (hloc : loc ∈ h.openCreate p) :
    Within places loc := by
  have hends := hs.locate hp
  unfold Host.openCreate at hloc
  split at hloc
  · next l hl =>
    rw [hl] at hends
    split at hloc
    · cases hloc
    · obtain rfl := List.mem_singleton.1 hloc
      exact hends
  · next d n hl =>
    rw [hl] at hends
    obtain rfl := List.mem_singleton.1 hloc
    exact Within.append hends [n]
  · cases hloc

/-! ## What grows -/

/-- What is at a place afterwards: what was there, if anything was, and no new link. -/
def Kept : Option Node → Option Node → Prop
  | none, o => ∀ target, o ≠ some (.link target)
  | some (.dir _), o => ∃ entries, o = some (.dir entries)
  | some .file, o => o = some .file
  | some (.link target), o => o = some (.link target)

theorem Kept.refl (o : Option Node) : Kept o o := by
  cases o with
  | none => exact fun target => by simp
  | some node =>
    cases node with
    | dir entries => exact ⟨entries, rfl⟩
    | file | link target => rfl

theorem Kept.trans {o₁ o₂ o₃ : Option Node} (h : Kept o₁ o₂) (h' : Kept o₂ o₃) : Kept o₁ o₃ := by
  cases o₁ with
  | none =>
    cases o₂ with
    | none => exact h'
    | some node =>
      cases node with
      | link target => exact absurd rfl (h target)
      | file =>
        obtain rfl : o₃ = some .file := h'
        exact fun target => by simp
      | dir entries =>
        obtain ⟨entries', rfl⟩ := h'
        exact fun target => by simp
  | some node =>
    cases node with
    | file | link target =>
      obtain rfl := h
      exact h'
    | dir entries =>
      obtain ⟨entries', rfl⟩ := h
      exact h'

def Grows (t t' : Node) : Prop := ∀ loc, Kept (t.find loc) (t'.find loc)

namespace Grows

theorem isDir (hg : Grows t t') (hdir : (t.find loc).any Node.isDir = true) :
    (t'.find loc).any Node.isDir = true := by
  have hkept := hg loc
  cases hfind : t.find loc with
  | none => simp [hfind] at hdir
  | some node =>
    rw [hfind] at hkept hdir
    cases node with
    | dir entries =>
      obtain ⟨entries', hentries⟩ := hkept
      rw [hentries]
      rfl
    | file | link target => cases hdir

theorem name (hg : Grows t t') {node : Node} (hn : t.find loc = some node) (hlink : node.isLink = false) :
    ∃ node', t'.find loc = some node' ∧ node'.isLink = false := by
  have hkept := hg loc
  rw [hn] at hkept
  cases node with
  | dir entries =>
    obtain ⟨entries', hentries⟩ := hkept
    exact ⟨_, hentries, rfl⟩
  | file => exact ⟨_, hkept, rfl⟩
  | link target => cases hlink

theorem link (hg : Grows t t') {target : Path} (hn : t.find loc = some (.link target)) :
    t'.find loc = some (.link target) := by
  have hkept := hg loc
  rw [hn] at hkept
  exact hkept

/-- There are no new links. -/
theorem of_link (hg : Grows t t') {target : Path} (hn : t'.find loc = some (.link target)) :
    t.find loc = some (.link target) := by
  have hkept := hg loc
  rw [hn] at hkept
  cases hfind : t.find loc with
  | none =>
    rw [hfind] at hkept
    exact absurd rfl (hkept target)
  | some node =>
    rw [hfind] at hkept
    cases node with
    | dir entries =>
      obtain ⟨entries', hentries⟩ := hkept
      cases hentries
    | file => cases hkept
    | link target' => exact hkept.symm

/-- What a walk finds, it finds again. -/
theorem walk (hg : Grows t t') {segs : List Seg} (h : walk t k cur segs = .found loc) :
    walk t' k cur segs = .found loc := by
  induction k, cur, segs using walk_induction t with
  | nil k cur =>
    rw [walk_nil] at h ⊢
    exact h
  | barred k cur seg rest hdir =>
    rw [walk_cons_of_not_isDir hdir] at h
    cases h
  | here k cur rest hdir ih =>
    rw [walk_cons_here hdir] at h
    rw [walk_cons_here (hg.isDir hdir)]
    exact ih h
  | up k cur rest hdir ih =>
    rw [walk_cons_up hdir] at h
    rw [walk_cons_up (hg.isDir hdir)]
    exact ih h
  | missing k cur n rest hdir hn =>
    rw [walk_cons_missing hdir hn] at h
    split at h <;> cases h
  | link k cur n target rest hdir hn ih =>
    rw [walk_cons_link hdir hn] at h
    rw [walk_cons_link (hg.isDir hdir) (hg.link hn)]
    by_cases htarget : target = .empty
    · rw [if_pos htarget] at h
      cases h
    · rw [if_neg htarget] at h ⊢
      cases k with
      | zero => cases h
      | succ k => exact ih k (Nat.lt_succ_self k) _ _ h
  | name k cur n node rest hdir hn hlink ih =>
    rw [walk_cons_name hdir hn hlink] at h
    obtain ⟨node', hn', hlink'⟩ := hg.name hn hlink
    rw [walk_cons_name (hg.isDir hdir) hn' hlink']
    exact ih h

end Grows

/-- The same process, in a file system that has grown. -/
structure Grown (h h' : Host) : Prop where
  dir : h'.dir = h.dir
  maxLinks : h'.maxLinks = h.maxLinks
  refuses : h'.refuses = h.refuses
  tree : Grows h.tree h'.tree

theorem Grown.refl (h : Host) : Grown h h := ⟨rfl, rfl, rfl, fun _ => Kept.refl _⟩

theorem Grown.trans {h'' : Host} (hg : Grown h h') (hg' : Grown h' h'') : Grown h h'' :=
  ⟨hg'.dir.trans hg.dir, hg'.maxLinks.trans hg.maxLinks, hg'.refuses.trans hg.refuses,
    fun loc => (hg.tree loc).trans (hg'.tree loc)⟩

theorem Grown.resolve? (hg : Grown h h') (hloc : h.resolve? p = some loc) : h'.resolve? p = some loc := by
  rw [Host.resolve?_eq_some] at hloc ⊢
  unfold Host.locate at hloc ⊢
  have hstart : h'.start p = h.start p := by
    unfold Host.start
    rw [hg.dir]
  rw [hg.refuses]
  by_cases hrefuses : h.refuses p = true
  · rw [if_pos hrefuses] at hloc
    cases hloc
  · rw [if_neg hrefuses] at hloc ⊢
    by_cases hempty : p = .empty
    · rw [if_pos hempty] at hloc
      cases hloc
    · rw [if_neg hempty] at hloc ⊢
      rw [hstart, hg.maxLinks]
      exact hg.tree.walk hloc

theorem Sealed.grow (hs : Sealed h places) (hg : Grown h h') : Sealed h' places where
  real r hr := by
    obtain ⟨node, hnode, hlink⟩ := hs.real r hr
    exact hg.tree.name hnode hlink
  links loc target hlink hloc := by
    obtain ⟨l, hl, hwithin⟩ := hs.links loc target (hg.tree.of_link hlink) hloc
    exact ⟨l, hg.resolve? hl, hwithin⟩

/-- A new object `n` in the directory `loc`. -/
def insertNode (new : Node) : List (String × Node) → Loc → String → List (String × Node)
  | entries, [], n => (n, new) :: entries
  | entries, m :: loc, n => entries.map fun e =>
    match e.2 with
    | .dir below => if e.1 = m then (m, .dir (insertNode new below loc n)) else e
    | _ => e

theorem insertDir_eq (entries : List (String × Node)) (loc : Loc) (n : String) :
    insertDir entries loc n = insertNode (.dir []) entries loc n := by
  induction loc generalizing entries with
  | nil => rfl
  | cons m loc ih =>
    refine List.map_congr_left fun e he => ?_
    obtain ⟨x, node⟩ := e
    cases node with
    | dir below => by_cases hx : x = m <;> simp [hx, ih]
    | file | link target => rfl

def insertIn (new : Node) (loc : Loc) (n : String) : Node → Node
  | .dir below => .dir (insertNode new below loc n)
  | node => node

theorem lookup_insertNode (new : Node) (entries : List (String × Node)) (m : String) (loc : Loc) (n x : String) :
    (insertNode new entries (m :: loc) n).lookup x =
      if x = m then (entries.lookup x).map (insertIn new loc n) else entries.lookup x := by
  induction entries with
  | nil => simp [insertNode]
  | cons e entries ih =>
    obtain ⟨y, node⟩ := e
    have hcons : insertNode new ((y, node) :: entries) (m :: loc) n =
        (y, if y = m then insertIn new loc n node else node) :: insertNode new entries (m :: loc) n := by
      cases node with
      | dir below =>
        by_cases hy : y = m
        · simp [insertNode, insertIn, hy]
        · simp [insertNode, hy]
      | file | link target => simp [insertNode, insertIn]
    rw [hcons, List.lookup_cons, List.lookup_cons, ih]
    by_cases hxy : x = y
    · subst hxy
      by_cases hx : x = m <;> simp [hx]
    · have hne : (x == y) = false := by simpa using hxy
      simp [hne]

/-- A new object, which brings no links, is put where there was none. -/
theorem grows_insertNode {new : Node} (hnew : ∀ q target, new.find q ≠ some (.link target)) {entries : List (String × Node)}
    {n : String} (hn : (Node.dir entries).find (loc ++ [n]) = none) :
    Grows (.dir entries) (.dir (insertNode new entries loc n)) := by
  induction loc generalizing entries with
  | nil =>
    intro q
    cases q with
    | nil => exact ⟨_, rfl⟩
    | cons m q =>
      by_cases hmn : m = n
      · subst hmn
        have hnone : entries.lookup m = none := by
          cases hlookup : entries.lookup m with
          | none => rfl
          | some node => simp [Node.find, hlookup] at hn
        have hold : (Node.dir entries).find (m :: q) = none := by simp [Node.find, hnone]
        have hfind : (Node.dir (insertNode new entries [] m)).find (m :: q) = new.find q := by
          simp [Node.find, insertNode]
        rw [hold, hfind]
        exact hnew q
      · have hfind : (Node.dir (insertNode new entries [] n)).find (m :: q) = (Node.dir entries).find (m :: q) := by
          have hne : (m == n) = false := by simpa using hmn
          simp [Node.find, insertNode, List.lookup_cons, hne]
        rw [hfind]
        exact Kept.refl _
  | cons m loc ih =>
    intro q
    cases q with
    | nil => exact ⟨_, rfl⟩
    | cons x q =>
      simp only [Node.find, lookup_insertNode]
      by_cases hx : x = m
      · subst hx
        rw [if_pos rfl]
        cases hlookup : entries.lookup x with
        | none => exact Kept.refl _
        | some node =>
          cases node with
          | dir below =>
            have hbelow : (Node.dir below).find (loc ++ [n]) = none := by simpa [Node.find, hlookup] using hn
            exact ih hbelow q
          | file | link target => exact Kept.refl _
      · rw [if_neg hx]
        exact Kept.refl _

/-! ## What is made -/

theorem find_file (q : Loc) (target : Path) : Node.file.find q ≠ some (.link target) := by
  cases q <;> simp [Node.find]

theorem find_emptyDir (q : Loc) (target : Path) : (Node.dir []).find q ≠ some (.link target) := by
  cases q <;> simp [Node.find]

theorem grown_insertNode {new : Node} (hnew : ∀ q target, new.find q ≠ some (.link target)) {n : String}
    (hn : h.tree.find (loc ++ [n]) = none) : Grown h { h with entries := insertNode new h.entries loc n } :=
  ⟨rfl, rfl, rfl, grows_insertNode hnew hn⟩

/-- What opening a path for writing leaves. -/
def Host.create (h : Host) (p : Path) : Host :=
  match h.locate p with
  | .missing d n false => { h with entries := insertNode .file h.entries d n }
  | _ => h

theorem grown_create (h : Host) (p : Path) : Grown h (h.create p) := by
  unfold Host.create
  split
  · next d n hmissing =>
    have hwalk : Posix.walk h.tree h.maxLinks (h.start p) p.segs = .missing d n false := by
      unfold Host.locate at hmissing
      split at hmissing
      · cases hmissing
      · split at hmissing
        · cases hmissing
        · exact hmissing
    exact grown_insertNode find_file (walk_missing hwalk)
  · exact Grown.refl h

/-- A directory that is made has grown the file system, in the place its path leads to. -/
theorem mkdir_made {init : Loc} {n : String} {made : Loc} (hmade : h.mkdir (.ofLoc (init ++ [n])) = .made h' made) :
    ∃ d, walk h.tree h.maxLinks [] (init.map .name) = .found d ∧ made = d ++ [n] ∧ h.tree.find (d ++ [n]) = none ∧
      Grown h h' := by
  unfold Host.mkdir at hmade
  have hsegs : (Path.ofLoc (init ++ [n])).trimmed.segs = (init ++ [n]).map .name := by rw [trimmed_ofLoc]; rfl
  rw [hsegs] at hmade
  simp only [List.map_append, List.map_cons, List.map_nil, List.getLast?_concat, List.dropLast_concat] at hmade
  split at hmade
  · cases hmade
  · split at hmade
    · next d hd =>
      split at hmade
      · cases hn : h.tree.find (d ++ [n]) with
        | some node =>
          rw [hn] at hmade
          cases hmade
        | none =>
          rw [hn] at hmade
          obtain ⟨rfl, rfl⟩ := Made.made.inj hmade
          refine ⟨d, hd, rfl, hn, ?_⟩
          rw [insertDir_eq]
          exact grown_insertNode find_emptyDir hn
      · cases hmade
    · cases hmade
    · cases hmade

/-- The place is within, or above one of the places. -/
def Near (places : List Loc) (loc : Loc) : Prop := Within places loc ∨ ∃ r ∈ places, loc <+: r

theorem Within.near (hloc : Within places loc) : Near places loc := .inl hloc

/-- Above a place that is near is one that is near. -/
theorem Near.dropLast (hloc : Near places loc) : Near places loc.dropLast := by
  obtain ⟨r, hr, below, rfl⟩ | ⟨r, hr, hpre⟩ := hloc
  · obtain rfl | ⟨b, n, rfl⟩ := List.eq_nil_or_concat below
    · right
      rw [List.append_nil]
      exact ⟨r, hr, List.dropLast_prefix r⟩
    · left
      rw [List.concat_eq_append, ← List.append_assoc, List.dropLast_concat]
      exact ⟨r, hr, b, rfl⟩
  · exact .inr ⟨r, hr, (List.dropLast_prefix loc).trans hpre⟩

/-- What is above one of the places is there. -/
theorem Sealed.real_above (hs : Sealed h places) {r : Loc} (hr : r ∈ places) (hpre : loc <+: r) : Real h.tree loc := by
  obtain ⟨below, rfl⟩ := hpre
  cases below with
  | nil =>
    have hreal := hs.real _ hr
    rwa [List.append_nil] at hreal
  | cons n below =>
    obtain ⟨node, hnode, -⟩ := hs.real _ hr
    exact real_of_isDir (isDir_of_find hnode)

/-- A directory that is made near the places is made within. -/
theorem Sealed.mkdir (hs : Sealed h places) (hloc : Near places loc) {made : Loc}
    (hmade : h.mkdir (.ofLoc loc) = .made h' made) : Within places made ∧ Grown h h' := by
  have habove (hreal : Real h.tree loc) : Within places made ∧ Grown h h' := by
    obtain hpresent | hrefused := Host.mkdir_ofLoc hreal
    · rw [hpresent] at hmade
      cases hmade
    · rw [hrefused] at hmade
      cases hmade
  obtain ⟨r, hr, below, rfl⟩ | ⟨r, hr, hpre⟩ := hloc
  · have hreal := hs.real r hr
    obtain rfl | ⟨b, n, rfl⟩ := List.eq_nil_or_concat below
    · rw [List.append_nil] at habove
      exact habove hreal
    · rw [List.concat_eq_append, ← List.append_assoc] at hmade
      obtain ⟨d, hd, rfl, -, hgrown⟩ := mkdir_made hmade
      refine ⟨?_, hgrown⟩
      rw [List.map_append, walk_names hreal] at hd
      have hends : EndsWithin places (Posix.walk h.tree h.maxLinks r (b.map .name)) := by
        refine hs.walk ⟨r, hr, List.prefix_refl r⟩ fun s hseg => ?_
        obtain ⟨m, -, rfl⟩ := List.mem_map.1 hseg
        simp
      rw [hd] at hends
      exact Within.append hends [n]
  · exact habove (hs.real_above hr hpre)

end Posix
