import Mathlib.Data.List.Sort
import OhMyClaw.Lib.RustStr
import OhMyClaw.Lib.SqlExpr
import OhMyClaw.Store.Memory
import OhMyClaw.Store.Transcript

/-!
# Searching the memories

Candidates are looked up in the index and then checked against their texts with LIKE; a term the
index cannot express makes the search read every row instead.  Each term adds an operand to the
statement's condition, and an engine refuses a condition that is too deep: the search of a long
message fails.

    index_covers        a part of a text has no token the text does not have
    indexPath_eq        the index loses no row and changes no order
    depth_indexWhere    the condition grows with the terms
    search_exact        in every store the operations lead to, when the rows are the right ones
-/

namespace OhMyClaw

/-! ## Query terms -/

def isAsciiPunctuation (c : Char) : Bool :=
  let n := c.toNat
  (33 ≤ n ∧ n ≤ 47) || (58 ≤ n ∧ n ≤ 64) || (91 ≤ n ∧ n ≤ 96) || (123 ≤ n ∧ n ≤ 126)

def isSeparator (c : Char) : Bool := RustStr.isWhitespace c || isAsciiPunctuation c

/-- The terms of a message: each segment, and its pairs of neighbours. -/
def tokenize (msg : String) : List String :=
  let segments := (msg.toList.splitOnP isSeparator).filter (2 ≤ ·.length)
  let terms := segments.flatMap fun seg => seg :: if 2 < seg.length then seg.windows 2 else []
  ((terms.map String.ofList).insertionSort (· ≤ ·)).dedup

/-- The shape of a query term. -/
structure IsTerm (t : String) : Prop where
  long : 2 ≤ t.toList.length
  unseparated : ∀ c ∈ t.toList, isSeparator c = false

theorem isTerm_tokenize {msg t : String} (h : t ∈ tokenize msg) : IsTerm t := by
  unfold tokenize at h
  rw [List.mem_dedup, List.mem_insertionSort] at h
  obtain ⟨chars, hchars, rfl⟩ := List.mem_map.1 h
  obtain ⟨seg, hseg, hmem⟩ := List.mem_flatMap.1 hchars
  obtain ⟨hseg, hlen⟩ := List.mem_filter.1 hseg
  have hplain := RustStr.splitOnP_separators hseg
  rcases List.mem_cons.1 hmem with rfl | hmem
  · constructor
    · simpa using hlen
    · simpa using hplain
  · split at hmem
    · obtain ⟨htwo, hpart⟩ := (List.mem_windows (by omega)).1 hmem
      constructor
      · rw [String.toList_ofList]
        omega
      · rw [String.toList_ofList]
        exact fun c hc => hplain c (hpart.subset hc)
    · simp at hmem

/-- A term means itself to LIKE. -/
theorem IsTerm.plain {t : String} (h : IsTerm t) : ∀ c ∈ t.toList, Sql.Plain c := by
  intro c hc
  have hsep := h.unseparated c hc
  constructor
  · rintro rfl
    revert hsep
    decide
  · rintro rfl
    revert hsep
    decide

/-! ## The search -/

/-- The full text engine: `isToken` are its letters and digits, `matches` says which documents satisfy a
MATCH expression.  Words that are separated by blanks are indexed as themselves, if they consist of what
both sides call letters and digits. -/
structure FtsEngine (U : Unicode) where
  isToken : Char → Bool
  satisfies : String → Fts.MatchExpr → Bool
  finds : ∀ (words : List String) (e : Fts.MatchExpr),
    (∀ w ∈ words, w ≠ "" ∧ ' ' ∉ w.toList) →
    (∀ conj ∈ e, ∀ q ∈ conj, q ≠ "" ∧ ∀ c ∈ q.toList, U.isAlphanumeric c = true ∧ isToken c = true) →
    (∃ conj ∈ e, ∀ q ∈ conj, q ∈ words) → satisfies (" ".intercalate words) e = true

def tierMatches (tierFilter : Option Tier) (r : MemoryRow) : Bool :=
  match tierFilter with
  | some t => r.tier = t
  | none => true

/-- `text LIKE '%t%'` for one of the terms. -/
def likeAny (queryTerms : List String) (r : MemoryRow) : Bool :=
  queryTerms.any fun t => Sql.like ('%' :: t.toList ++ ['%']) r.text.toList

/-- The largest numbers first. -/
def descending {α : Type*} (key : α → Nat) (xs : List α) : List α :=
  xs.insertionSort fun a b => key b ≤ key a

/-- Every row is read. -/
def fullScan (db : MemDb) (queryTerms : List String) (tierFilter : Option Tier) (limit : Int) : List MemoryRow :=
  sqlLimit limit
    (descending (·.no) (db.memory.filter fun r => likeAny queryTerms r && tierMatches tierFilter r))

section Rows

variable {U : Unicode} (F : FtsEngine U)

/-- The documents that satisfy the expression, joined with their rows, checked again. -/
def indexPath (db : MemDb) (matchExpr : Fts.MatchExpr) (queryTerms : List String) (tierFilter : Option Tier)
    (limit : Int) : List MemoryRow :=
  let joined := (db.memoryFts.filter fun f => F.satisfies f.terms matchExpr).flatMap fun f =>
    (db.memory.filter (·.no = f.rowid)).map fun m => (f.rowid, m)
  let rows := joined.filter fun p => tierMatches tierFilter p.2 && likeAny queryTerms p.2
  (sqlLimit limit (descending (·.1) rows)).map (·.2)

end Rows

/-! ## The statements -/

def Tier.asStr : Tier → String
  | .curated => "curated"
  | .episodic => "episodic"
  | .prospective => "prospective"
  | .review => "review"

/-- A condition with the tier's clause behind it. -/
def withTier (tierFilter : Option Tier) (cond : Sql.Expr) : Sql.Expr :=
  match tierFilter with
  | some t => .binary .and cond (.binary .eq (.column "m" "tier") (.text t.asStr))
  | none => cond

/-- `m.text LIKE ?k OR m.text LIKE ?k+1 OR …`: a parameter for each term. -/
def anyLike (first count : Nat) : Sql.Expr :=
  let textLike (k : Nat) : Sql.Expr := .binary .like (.column "m" "text") (.param k)
  .chain .or (textLike first) ((List.range' (first + 1) (count - 1)).map textLike)

/-- The condition of the join stands behind the others. -/
def indexWhere (tierFilter : Option Tier) (count : Nat) : Sql.Expr :=
  let found : Sql.Expr := .binary .ftsMatch (.column "f" "memory_fts") (.param 1)
  .binary .and (.binary .and (withTier tierFilter found) (anyLike 2 count))
    (.binary .eq (.column "m" "no") (.column "f" "rowid"))

def scanWhere (tierFilter : Option Tier) (count : Nat) : Sql.Expr := withTier tierFilter (anyLike 1 count)

def recentWhere (tierFilter : Option Tier) : Sql.Expr :=
  withTier tierFilter (.binary .eq (.number 1) (.number 1))

/-- The engine a search runs on: how deep an expression may be, how many bytes a pattern of LIKE may have,
and which searches read their rows without an error.  Its limit on the parameters of a statement lies far
behind the one on the depth. -/
structure SearchEngine (U : Unicode) extends FtsEngine U where
  maxDepth : Nat
  likeLimit : Nat
  steps : MemDb → List String → Option Tier → Int → Bool
  steps_of_short : ∀ db (queryTerms : List String) tierFilter limit,
    (∀ t ∈ queryTerms, t.utf8ByteSize + 2 ≤ likeLimit) → steps db queryTerms tierFilter limit = true

section Search

variable {U : Unicode} (F : SearchEngine U)

/-- The condition of the statement that is prepared. -/
def searchWhere (U : Unicode) (queryTerms : List String) (tierFilter : Option Tier) : Sql.Expr :=
  if queryTerms = [] then recentWhere tierFilter
  else
    match Fts.matchExpr U queryTerms with
    | some _ => indexWhere tierFilter queryTerms.length
    | none => scanWhere tierFilter queryTerms.length

/-- `none` for an error: of the statement's preparation, or of the reading of its rows. -/
def searchCandidates (db : MemDb) (queryTerms : List String) (tierFilter : Option Tier) (limit : Int) :
    Option (List MemoryRow) :=
  if F.maxDepth < (searchWhere U queryTerms tierFilter).depth then none
  else if !F.steps db queryTerms tierFilter limit then none
  else if queryTerms = [] then
    some (sqlLimit limit (descending (·.no) (db.memory.filter (tierMatches tierFilter))))
  else
    match Fts.matchExpr U queryTerms with
    | some matchExpr => some (indexPath F.toFtsEngine db matchExpr queryTerms tierFilter limit)
    | none => some (fullScan db queryTerms tierFilter limit)

end Search

theorem depth_anyLike (first : Nat) {count : Nat} (h : 0 < count) : (anyLike first count).depth = count + 2 := by
  unfold anyLike
  rw [Sql.Expr.depth_chain]
  · simp only [Sql.Expr.depth, List.length_map, List.length_range']
    omega
  · intro x hx
    obtain ⟨k, -, rfl⟩ := List.mem_map.1 hx
    exact Nat.le_refl _

theorem depth_indexWhere (tierFilter : Option Tier) {count : Nat} (h : 0 < count) :
    (indexWhere tierFilter count).depth = max (count + 4) (if tierFilter = none then 5 else 6) := by
  cases tierFilter with
  | none =>
    simp only [indexWhere, withTier, Sql.Expr.depth, depth_anyLike 2 h]
    simp
    omega
  | some t =>
    simp only [indexWhere, withTier, Sql.Expr.depth, depth_anyLike 2 h]
    simp
    omega

theorem depth_scanWhere (tierFilter : Option Tier) {count : Nat} (h : 0 < count) :
    (scanWhere tierFilter count).depth = count + if tierFilter = none then 2 else 3 := by
  cases tierFilter with
  | none => simp [scanWhere, withTier, depth_anyLike 1 h]
  | some t =>
    simp only [scanWhere, withTier, Sql.Expr.depth, depth_anyLike 1 h]
    simp
    omega

/-! ## The index finds what LIKE finds -/

section Exact

variable {U : Unicode} {F : FtsEngine U} {db : MemDb} {queryTerms : List String} {matchExpr : Fts.MatchExpr}

/-- The characters of a query that count are letters and digits to the engine too. -/
def Shared (F : FtsEngine U) (queryTerms : List String) : Prop :=
  ∀ t ∈ queryTerms, ∀ d ∈ t.toList, ∀ c ∈ U.toLowercase d, U.isAlphanumeric c = true → F.isToken c = true

theorem mem_matchExpr (h : Fts.matchExpr U queryTerms = some matchExpr) {conj : List String} :
    conj ∈ matchExpr ↔ ∃ t ∈ queryTerms, Fts.sortedTokens U t = conj := by
  unfold Fts.matchExpr at h
  split at h
  · simp at h
  · clear * - h
    induction queryTerms generalizing matchExpr with
    | nil =>
      obtain rfl : [] = matchExpr := by simpa using h
      simp
    | cons t ts ih =>
      rw [List.mapM_cons] at h
      obtain ⟨tokens, htokens, h⟩ := Option.bind_eq_some_iff.1 h
      obtain ⟨rest, hrest, h⟩ := Option.bind_eq_some_iff.1 h
      obtain rfl := Option.some.inj h
      have ht : Fts.sortedTokens U t = tokens := by
        unfold Fts.termExpr at htokens
        simp only at htokens
        split at htokens
        · simp at htokens
        · exact Option.some.inj htokens
      rw [List.mem_cons, ih hrest]
      constructor
      · rintro (rfl | ⟨t', ht', hconj⟩)
        · exact ⟨t, List.mem_cons_self, ht⟩
        · exact ⟨t', List.mem_cons_of_mem _ ht', hconj⟩
      · rintro ⟨t', ht', rfl⟩
        rcases List.mem_cons.1 ht' with rfl | ht'
        · exact Or.inl ht
        · exact Or.inr ⟨t', ht', rfl⟩

/-- The document of a row that LIKE finds satisfies the expression. -/
theorem satisfies_of_likeAny (hlong : ∀ t ∈ queryTerms, 2 ≤ t.toList.length)
    (hplain : ∀ t ∈ queryTerms, ∀ c ∈ t.toList, Sql.Plain c) (hshared : Shared F queryTerms)
    (hexpr : Fts.matchExpr U queryTerms = some matchExpr) {r : MemoryRow} (hlike : likeAny queryTerms r = true) :
    F.satisfies (Fts.encodeDoc U r.text) matchExpr = true := by
  obtain ⟨t, ht, hlike⟩ := List.any_eq_true.1 hlike
  obtain ⟨part, hpart, hsame⟩ := (Sql.like_contains (hplain t ht)).1 hlike
  refine F.finds (Fts.sortedTokens U r.text) matchExpr ?_ ?_ ⟨_, (mem_matchExpr hexpr).2 ⟨t, ht, rfl⟩, ?_⟩
  · intro w hw
    obtain ⟨hne, hchars⟩ := Fts.windows_chars (Fts.mem_sortedTokens.1 hw)
    refine ⟨hne, fun hblank => ?_⟩
    have halnum := (hchars ' ' hblank).1
    rw [U.isAlphanumeric_blank] at halnum
    simp at halnum
  · intro conj hconj q hq
    obtain ⟨t', ht', rfl⟩ := (mem_matchExpr hexpr).1 hconj
    obtain ⟨hne, hchars⟩ := Fts.windows_chars (Fts.mem_sortedTokens.1 hq)
    refine ⟨hne, fun c hc => ?_⟩
    obtain ⟨halnum, d, hd, hcd⟩ := hchars c hc
    exact ⟨halnum, hshared t' ht' d hd c hcd halnum⟩
  · intro q hq
    rw [Fts.mem_sortedTokens] at hq ⊢
    exact Fts.windows_contains (hlong t ht) hpart hsame hq

/-- Lists of the same elements are put into the same order, if their numbers are different. -/
theorem descending_perm {α : Type*} {key : α → Nat} {xs ys : List α} (h : xs.Perm ys)
    (hkey : ∀ a ∈ xs, ∀ b ∈ xs, key a = key b → a = b) : descending key xs = descending key ys := by
  refine @List.Perm.eq_of_pairwise α (fun a b => key b ≤ key a) _ _ ?_ ?_ ?_ ?_
  · intro a b ha hb hab hba
    unfold descending at ha hb
    rw [List.mem_insertionSort] at ha hb
    exact hkey a ha b (h.mem_iff.2 hb) (Nat.le_antisymm hba hab)
  · exact List.pairwise_insertionSort _ _
  · exact List.pairwise_insertionSort _ _
  · exact (List.perm_insertionSort _ _).trans (h.trans (List.perm_insertionSort _ _).symm)

theorem map_descending {α β : Type*} (key : α → Nat) {key' : β → Nat} {f : α → β} (h : ∀ a, key' (f a) = key a)
    (xs : List α) : (descending key xs).map f = descending key' (xs.map f) := by
  unfold descending
  apply List.map_insertionSort
  intro a _ b _
  rw [h, h]

theorem map_sqlLimit {α β : Type*} (f : α → β) (limit : Int) (xs : List α) :
    (sqlLimit limit xs).map f = sqlLimit limit (xs.map f) := by
  unfold sqlLimit
  split
  · rfl
  · exact List.map_take

/-- What the join finds are the rows with a document that satisfies the expression. -/
theorem joined_perm (hsound : db.Sound U) (hit : FtsRow → Bool) :
    ((db.memoryFts.filter hit).flatMap fun f =>
      (db.memory.filter (·.no = f.rowid)).map fun m => (f.rowid, m)).Perm
    ((db.memory.filter fun r => hit (MemDb.doc U r)).map fun r => (r.no, r)) := by
  have hdocs : (db.memoryFts.filter hit).Perm ((db.memory.filter fun r => hit (MemDb.doc U r)).map (MemDb.doc U)) := by
    have := hsound.indexed.filter hit
    rwa [List.filter_map] at this
  refine (hdocs.flatMap_right _).trans ?_
  rw [List.flatMap_map, ← List.flatMap_singleton' (List.map _ _), List.flatMap_map]
  have hone : ∀ r ∈ db.memory.filter fun r => hit (MemDb.doc U r),
      ((db.memory.filter (·.no = (MemDb.doc U r).rowid)).map fun m => ((MemDb.doc U r).rowid, m)) = [(r.no, r)] := by
    intro r hr
    show (db.memory.filter (·.no = r.no)).map (fun m => (r.no, m)) = _
    rw [MemDb.filter_no hsound.rising (List.mem_filter.1 hr).1]
    rfl
  exact List.Perm.of_eq (List.flatMap_congr hone)

/-- The index loses no row that LIKE finds, and keeps their order. -/
theorem indexPath_eq (hsound : db.Sound U) (hterms : ∀ t ∈ queryTerms, IsTerm t) (hshared : Shared F queryTerms)
    (hexpr : Fts.matchExpr U queryTerms = some matchExpr) (tierFilter : Option Tier) (limit : Int) :
    indexPath F db matchExpr queryTerms tierFilter limit = fullScan db queryTerms tierFilter limit := by
  have hperm := (joined_perm hsound fun f => F.satisfies f.terms matchExpr).filter
    fun p => tierMatches tierFilter p.2 && likeAny queryTerms p.2
  rw [List.filter_map, List.filter_filter] at hperm
  -- The check on the text makes the one on the document redundant.
  have hrows : (db.memory.filter fun r => ((fun p : Nat × MemoryRow => tierMatches tierFilter p.2 && likeAny queryTerms p.2) ∘
      fun r => (r.no, r)) r && F.satisfies (MemDb.doc U r).terms matchExpr) =
      db.memory.filter fun r => likeAny queryTerms r && tierMatches tierFilter r := by
    apply List.filter_congr
    intro r _
    simp only [Function.comp_apply]
    cases hlike : likeAny queryTerms r with
    | false => simp
    | true =>
      have hdoc : F.satisfies (MemDb.doc U r).terms matchExpr = true :=
        satisfies_of_likeAny (fun t ht => (hterms t ht).long) (fun t ht => (hterms t ht).plain) hshared hexpr hlike
      simp [hdoc]
  rw [hrows] at hperm
  have hkey : ∀ p ∈ (db.memory.filter fun r => likeAny queryTerms r && tierMatches tierFilter r).map
      (fun r => (r.no, r)), ∀ q ∈ (db.memory.filter fun r => likeAny queryTerms r && tierMatches tierFilter r).map
      (fun r => (r.no, r)), p.1 = q.1 → p = q := by
    intro p hp q hq hno
    obtain ⟨r, hr, rfl⟩ := List.mem_map.1 hp
    obtain ⟨r', hr', rfl⟩ := List.mem_map.1 hq
    rw [MemDb.eq_of_no hsound.rising (List.mem_filter.1 hr).1 (List.mem_filter.1 hr').1 hno]
  unfold indexPath fullScan
  simp only
  rw [descending_perm hperm fun p hp q hq => hkey p (hperm.mem_iff.1 hp) q (hperm.mem_iff.1 hq),
    ← map_descending MemoryRow.no (f := fun r => (r.no, r)) fun _ => rfl, map_sqlLimit, List.map_map]
  exact congrArg _ (List.map_id _)

end Exact

/-- The tokens of a text are those of every part of it with two characters or more, whatever its case; so a
text that LIKE finds is found by the index. -/
theorem index_covers {U : Unicode} (F : FtsEngine U) (r : MemoryRow) :
    (∀ (part : List Char) (sub : String), part <:+: r.text.toList → Sql.sameCase part sub.toList →
      2 ≤ sub.toList.length → ∀ q ∈ Fts.windows U sub, q ∈ Fts.windows U r.text) ∧
    ∀ (queryTerms : List String) (matchExpr : Fts.MatchExpr), (∀ t ∈ queryTerms, 2 ≤ t.toList.length) →
      (∀ t ∈ queryTerms, ∀ c ∈ t.toList, Sql.Plain c) → Shared F queryTerms →
      Fts.matchExpr U queryTerms = some matchExpr → likeAny queryTerms r = true →
      F.satisfies (MemDb.doc U r).terms matchExpr = true := by
  refine ⟨fun part sub hpart hsame hlong q hq => ?_, fun queryTerms matchExpr hlong hplain hshared hexpr hlike => ?_⟩
  · exact Fts.windows_contains hlong hpart hsame hq
  · exact satisfies_of_likeAny hlong hplain hshared hexpr hlike

/-- An index that cuts its documents at blanks. -/
def testFts : FtsEngine testUnicode where
  isToken := testUnicode.isAlphanumeric
  satisfies terms e := e.any fun conj => conj.all fun q => (terms.toList.splitOn ' ').contains q.toList
  finds words e hwords _ hconj := by
    obtain ⟨conj, hmem, hall⟩ := hconj
    refine List.any_eq_true.2 ⟨conj, hmem, List.all_eq_true.2 fun q hq => ?_⟩
    have hw := hall q hq
    have hsplit : (" ".intercalate words).toList.splitOn ' ' = words.map String.toList := by
      rw [String.toList_intercalate]
      refine List.splitOn_intercalate ' ' (fun l hl => ?_) fun hnil => ?_
      · obtain ⟨w, hw, rfl⟩ := List.mem_map.1 hl
        exact (hwords w hw).2
      · rw [List.map_eq_nil_iff.1 hnil] at hw
        simp at hw
    rw [hsplit, List.contains_iff_mem]
    exact List.mem_map_of_mem hw

theorem index_covers_blank : ∃ r : MemoryRow, r.text = "VS Code" ∧ "s" ∈ Fts.windows testUnicode r.text ∧
    testFts.satisfies (MemDb.doc testUnicode r).terms [["c", "s"]] = true := by
  let r : MemoryRow := .new (testMemory "c1" .curated "VS Code") 1 0
  obtain ⟨htokens, hfinds⟩ := index_covers testFts r
  have hsame : Sql.sameCase ['S', ' ', 'C'] "s c".toList := by
    unfold Sql.sameCase
    decide
  have hplain : ∀ c ∈ "s c".toList, c ≠ '%' ∧ c ≠ '_' := List.forall_iff_forall_mem.1 (by decide)
  refine ⟨r, rfl, htokens ['S', ' ', 'C'] "s c" (by decide) hsame (by decide) "s" (by decide), ?_⟩
  refine hfinds ["s c"] [["c", "s"]] (by decide) ?_ (fun _ _ _ _ _ _ h => h) (by decide) (by decide)
  exact fun t ht => List.mem_singleton.1 ht ▸ hplain

/-- In every store a run of operations leads to, done or failed, the index holds one document for each
row, and the rows the index finds are those that reading every row finds.  A search answers with them
exactly if its condition is not too deep and its rows are read; through the index, the condition is deeper than
the number of terms by four. -/
theorem search_exact {U : Unicode} (F : SearchEngine U) (acts : List MemDb.Act) (db : MemDb)
    (hrun : Steps.exec (MemDb.step U) .empty acts = some db) :
    (db.memory.map (·.no)).Nodup ∧ db.memoryFts.Perm (db.memory.map (MemDb.doc U)) ∧
      ∀ (queryTerms : List String) (tierFilter : Option Tier) (limit : Int), queryTerms ≠ [] →
        (∀ t ∈ queryTerms, IsTerm t) → Shared F.toFtsEngine queryTerms →
        (searchCandidates F db queryTerms tierFilter limit = some (fullScan db queryTerms tierFilter limit) ↔
          (searchWhere U queryTerms tierFilter).depth ≤ F.maxDepth ∧ F.steps db queryTerms tierFilter limit = true) ∧
        ∀ matchExpr, Fts.matchExpr U queryTerms = some matchExpr →
          indexPath F.toFtsEngine db matchExpr queryTerms tierFilter limit = fullScan db queryTerms tierFilter limit ∧
          (searchWhere U queryTerms tierFilter).depth =
            max (queryTerms.length + 4) (if tierFilter = none then 5 else 6) := by
  have hsound := MemDb.sound_of_run hrun
  refine ⟨hsound.rising.imp Nat.ne_of_lt, hsound.indexed, fun queryTerms tierFilter limit hne hterms hshared => ?_⟩
  have hindex : ∀ matchExpr, Fts.matchExpr U queryTerms = some matchExpr →
      indexPath F.toFtsEngine db matchExpr queryTerms tierFilter limit = fullScan db queryTerms tierFilter limit :=
    fun matchExpr hexpr => indexPath_eq hsound hterms hshared hexpr tierFilter limit
  constructor
  · unfold searchCandidates
    by_cases hdeep : F.maxDepth < (searchWhere U queryTerms tierFilter).depth
    · rw [if_pos hdeep]
      constructor
      · intro h
        cases h
      · rintro ⟨hfits, -⟩
        omega
    rw [if_neg hdeep]
    cases hsteps : F.steps db queryTerms tierFilter limit with
    | false => simp
    | true =>
      simp only [Bool.not_true, Bool.false_eq_true, if_false, if_neg hne, and_true]
      refine ⟨fun _ => Nat.le_of_not_lt hdeep, fun _ => ?_⟩
      split
      · next matchExpr hexpr => rw [hindex matchExpr hexpr]
      · rfl
  · intro matchExpr hexpr
    refine ⟨hindex matchExpr hexpr, ?_⟩
    unfold searchWhere
    rw [if_neg hne, hexpr]
    exact depth_indexWhere tierFilter (List.length_pos_iff.2 hne)

/-- With the limits of the library the program is built with. -/
def testEngine : SearchEngine testUnicode where
  toFtsEngine := testFts
  maxDepth := 1000
  likeLimit := 50000
  steps _ queryTerms _ _ := queryTerms.all fun t => t.utf8ByteSize + 2 ≤ 50000
  steps_of_short _ _ _ _ h := List.all_eq_true.2 fun t ht => decide_eq_true (h t ht)

/-- Two memories that are merged, after one of the attempts has failed. -/
def mergedActs : List MemDb.Act :=
  [.commits (.upsert (testMemory "c1" .curated "编辑器") 1), .commits (.upsert (testMemory "e1" .episodic "VS Code") 2),
    .fails (.merge "e1" "c1" "编辑器是 VS Code" "h"), .commits (.touch "e1" 3),
    .commits (.merge "e1" "c1" "编辑器是 VS Code" "h")]

theorem search_exact_merged : ∃ db, Steps.exec (MemDb.step testUnicode) .empty mergedActs = some db ∧
    (searchCandidates testEngine db ["vs"] (some .curated) 10).map (·.map (·.id)) = some ["c1"] := by
  have hrun : (Steps.exec (MemDb.step testUnicode) .empty mergedActs).map
      (fun db => (fullScan db ["vs"] (some .curated) 10).map (·.id)) = some ["c1"] := by
    decide
  obtain ⟨db, hdb, hids⟩ := Option.map_eq_some_iff.1 hrun
  have hterms : ∀ t ∈ ["vs"], IsTerm t := by
    intro t ht
    rw [List.mem_singleton.1 ht]
    exact ⟨by decide, List.forall_iff_forall_mem.1 (by decide)⟩
  have hexact := (search_exact testEngine mergedActs db hdb).2.2 ["vs"] (some .curated) 10 (by decide) hterms
    fun _ _ _ _ _ _ h => h
  refine ⟨db, hdb, ?_⟩
  rw [hexact.1.2 ⟨by decide, testEngine.steps_of_short _ _ _ _ (by decide)⟩, Option.map_some, hids]

/-! ## A message that is too long -/

/-- The tokens of a text without separators whose characters are all different. -/
theorem tokenize_perm {msg : String} (hplain : ∀ c ∈ msg.toList, isSeparator c = false)
    (hlen : 2 < msg.toList.length) (hnodup : msg.toList.Nodup) :
    (tokenize msg).Perm ((msg.toList :: msg.toList.windows 2).map String.ofList) := by
  have hwhole : msg.toList ∉ msg.toList.windows 2 := by
    intro h
    have := ((List.mem_windows (by omega)).1 h).1
    omega
  have hdistinct : (msg.toList :: msg.toList.windows 2).Nodup :=
    List.nodup_cons.2 ⟨hwhole, List.nodup_windows (by omega) hnodup⟩
  have hterms : ((msg.toList :: msg.toList.windows 2).map String.ofList).Nodup :=
    hdistinct.map fun _ _ h => String.ofList_injective h
  have hsort := List.perm_insertionSort (· ≤ ·) ((msg.toList :: msg.toList.windows 2).map String.ofList)
  have hdedup := (hsort.nodup_iff.2 hterms).dedup
  have htokenize : tokenize msg =
      (((msg.toList :: msg.toList.windows 2).map String.ofList).insertionSort (· ≤ ·)).dedup := by
    unfold tokenize
    rw [List.splitOnP_eq_singleton hplain]
    simp only [List.filter_cons, List.filter_nil, decide_eq_true (Nat.le_of_lt hlen), if_true, List.flatMap_cons,
      List.flatMap_nil, if_pos hlen, List.append_nil]
  rw [htokenize, hdedup]
  exact hsort

/-- The index can express terms that all have a token. -/
theorem isSome_matchExpr {U : Unicode} {queryTerms : List String} (hne : queryTerms ≠ [])
    (h : ∀ t ∈ queryTerms, Fts.windows U t ≠ []) : (Fts.matchExpr U queryTerms).isSome = true := by
  unfold Fts.matchExpr
  rw [if_neg hne]
  clear hne
  induction queryTerms with
  | nil => rfl
  | cons t ts ih =>
    obtain ⟨rest, hrest⟩ := Option.isSome_iff_exists.1 (ih fun t' ht' => h t' (List.mem_cons_of_mem _ ht'))
    obtain ⟨q, hq⟩ := List.exists_mem_of_ne_nil _ (h t List.mem_cons_self)
    have hterm : Fts.termExpr U t = some (Fts.sortedTokens U t) := by
      unfold Fts.termExpr
      exact if_neg (List.ne_nil_of_mem (Fts.mem_sortedTokens.2 hq))
    rw [List.mapM_cons, hterm, hrest]
    rfl

/-- Chinese characters, each once. -/
@[irreducible] def longMessage : String := String.ofList ((List.range 997).map fun i => Char.ofNat (0x4e00 + i))

theorem toNat_longMessage : longMessage.toList.map Char.toNat = (List.range 997).map (0x4e00 + ·) := by
  unfold longMessage
  rw [String.toList_ofList, List.map_map]
  apply List.map_congr_left
  intro i hi
  have hvalid : (0x4e00 + i).isValidChar := Or.inl (by have := List.mem_range.1 hi; omega)
  show (Char.ofNat (0x4e00 + i)).toNat = _
  rw [Char.ofNat, dif_pos hvalid]
  rfl

theorem bounds_longMessage {c : Char} (h : c ∈ longMessage.toList) : 0x4e00 ≤ c.toNat ∧ c.toNat < 0x51e5 := by
  have hmem := List.mem_map_of_mem (f := Char.toNat) h
  rw [toNat_longMessage] at hmem
  obtain ⟨i, hi, heq⟩ := List.mem_map.1 hmem
  have := List.mem_range.1 hi
  omega

theorem tokenize_longMessage :
    (tokenize longMessage).Perm ((longMessage.toList :: longMessage.toList.windows 2).map String.ofList) := by
  have hlen : longMessage.toList.length = 997 := by
    have := congrArg List.length toNat_longMessage
    simpa using this
  refine tokenize_perm (fun c hc => ?_) (by omega) ?_
  · have := bounds_longMessage hc
    simp only [isSeparator, RustStr.isWhitespace, isAsciiPunctuation, Bool.or_eq_false_iff, decide_eq_false_iff_not]
    omega
  · refine List.Nodup.of_map Char.toNat ?_
    rw [toNat_longMessage]
    exact List.nodup_range.map fun i j h => Nat.add_left_cancel h

theorem windows_longMessage {t : String} (h : t ∈ tokenize longMessage) : Fts.windows testUnicode t ≠ [] := by
  have hlong := (isTerm_tokenize h).long
  obtain ⟨chars, hchars, rfl⟩ := List.mem_map.1 (tokenize_longMessage.mem_iff.1 h)
  rw [String.toList_ofList] at hlong
  have hpart : ∀ c ∈ chars, c ∈ longMessage.toList := by
    rcases List.mem_cons.1 hchars with rfl | hwindow
    · exact fun c hc => hc
    · exact fun c hc => ((List.mem_windows (by omega)).1 hwindow).2.subset hc
  obtain ⟨c, d, rest, rfl⟩ : ∃ c d rest, chars = c :: d :: rest := by
    match chars, hlong with
    | c :: d :: rest, _ => exact ⟨c, d, rest, rfl⟩
  have hletter : testUnicode.isAlphanumeric c.toLower = true := by
    have hbound := (bounds_longMessage (hpart c List.mem_cons_self)).1
    have hlower : c.toLower = c := by
      unfold Char.toLower
      refine dif_neg fun ⟨_, hupper⟩ => ?_
      have hz : c.toNat ≤ 90 := UInt32.le_iff_toNat_le.1 hupper
      omega
    rw [hlower]
    simp only [testUnicode, Bool.or_eq_true, decide_eq_true_eq]
    omega
  have hfold : Fts.fold testUnicode [c, d] ≠ none := by
    unfold Fts.fold
    simp only [ne_eq, ite_eq_left_iff, reduceCtorEq, imp_false, not_not]
    refine List.ne_nil_of_mem (a := c.toLower) (List.mem_filter.2 ⟨?_, hletter⟩)
    exact List.mem_flatMap.2 ⟨c, List.mem_cons_self, List.mem_singleton.2 rfl⟩
  obtain ⟨q, hq⟩ := Option.ne_none_iff_exists'.1 hfold
  have hwindow : [c, d] ∈ (c :: d :: rest).windows 2 :=
    (List.mem_windows (by omega)).2 ⟨rfl, (List.prefix_append [c, d] rest).isInfix⟩
  refine List.ne_nil_of_mem (a := q) ((Fts.mem_windows (by rwa [String.toList_ofList])).2 ⟨[c, d], ?_, hq⟩)
  rwa [String.toList_ofList]

/-- The terms of this message are too many for the index, though not for reading every row: the memory they
speak of is not found. -/
theorem search_exact_fails : ∃ db, Steps.exec (MemDb.step testUnicode) .empty
      [.commits (.upsert (testMemory "c1" .curated "一丁") 1)] = some db ∧
    (tokenize longMessage).length = 997 ∧ (∀ t ∈ tokenize longMessage, IsTerm t) ∧
    Shared testFts (tokenize longMessage) ∧ (Fts.matchExpr testUnicode (tokenize longMessage)).isSome = true ∧
    (fullScan db (tokenize longMessage) (some .curated) 32).map (·.id) = ["c1"] ∧
    (scanWhere (some .curated) 997).depth ≤ testEngine.maxDepth ∧
    searchCandidates testEngine db (tokenize longMessage) (some .curated) 32 = none := by
  have hcount : (tokenize longMessage).length = 997 := by
    have hlen := congrArg List.length toNat_longMessage
    rw [List.length_map, List.length_map, List.length_range] at hlen
    rw [tokenize_longMessage.length_eq, List.length_map, List.length_cons, List.length_windows (by omega), hlen]
  have hne : tokenize longMessage ≠ [] := by
    intro hnil
    rw [hnil] at hcount
    cases hcount
  have hexpr := isSome_matchExpr hne fun t ht => windows_longMessage ht
  have hterm : "一丁" ∈ tokenize longMessage := by
    refine tokenize_longMessage.mem_iff.2 (List.mem_map.2 ⟨['一', '丁'], List.mem_cons_of_mem _ ?_, rfl⟩)
    refine (List.mem_windows (by omega)).2 ⟨rfl, List.IsPrefix.isInfix ?_⟩
    unfold longMessage
    rw [String.toList_ofList, List.range_eq_range', List.range'_succ, List.range'_succ, List.map_cons, List.map_cons]
    exact List.prefix_append _ _
  have hfits : ¬ (scanWhere (some .curated) 997).depth > testEngine.maxDepth := by
    rw [depth_scanWhere _ (by decide)]
    decide
  refine ⟨_, rfl, hcount, fun t ht => isTerm_tokenize ht, fun _ _ _ _ _ _ h => h, hexpr, ?_, Nat.le_of_not_lt hfits, ?_⟩
  · let r : MemoryRow := .new (testMemory "c1" .curated "一丁") 1 1
    have hlike : likeAny (tokenize longMessage) r = true := List.any_eq_true.2 ⟨_, hterm, by decide⟩
    have hfound : (fullScan { memory := [r], memoryFts := [] } (tokenize longMessage) (some .curated) 32).map (·.id) =
        ["c1"] := by
      unfold fullScan
      rw [List.filter_cons_of_pos (by rw [hlike]; rfl)]
      rfl
    exact hfound
  · obtain ⟨matchExpr, hexpr⟩ := Option.isSome_iff_exists.1 hexpr
    unfold searchCandidates
    refine if_pos ?_
    unfold searchWhere
    rw [if_neg hne, hexpr, hcount, depth_indexWhere _ (by decide)]
    decide

end OhMyClaw
