import Mathlib.Algebra.Order.Ring.Rat
import OhMyClaw.Lib.Steps
import OhMyClaw.Store.Fts

/-!
# Memories

The table of the memories and the index of their texts, with every operation that changes them.
The index holds no texts and follows the table only because each operation writes both.

    sound_step      a row, a document: throughout every run

Each operation is one transaction: it is done as a whole or not at all.
-/

namespace OhMyClaw

inductive Tier where
  | curated | episodic | prospective | review
deriving DecidableEq, Repr

inductive Origin where
  | owner | agent | untrusted | system
deriving DecidableEq, Repr

/-- A memory to be written. -/
structure NewMemory where
  id : String
  tier : Tier
  origin : Origin
  text : String
  keywords : Option String
  importance : ℚ
  contentHash : String
  prefKey : Option String
  source : Option String
deriving DecidableEq, Repr

/-- A row of the table `memory`; the importance is taken as the number it stands for. -/
structure MemoryRow where
  no : Nat
  id : String
  tier : Tier
  origin : Origin
  text : String
  keywords : Option String
  importance : ℚ
  createdAt : Int
  lastUsedAt : Option Int
  useCount : Int
  contentHash : String
  prefKey : Option String
  source : Option String
deriving DecidableEq, Repr

/-- A document of the table `memory_fts`. -/
structure FtsRow where
  rowid : Nat
  terms : String
deriving DecidableEq, Repr

structure MemDb where
  memory : List MemoryRow
  memoryFts : List FtsRow
deriving DecidableEq, Repr

def MemoryRow.new (m : NewMemory) (no : Nat) (now : Int) : MemoryRow :=
  { no, id := m.id, tier := m.tier, origin := m.origin, text := m.text, keywords := m.keywords
    importance := m.importance, createdAt := now, lastUsedAt := none, useCount := 0
    contentHash := m.contentHash, prefKey := m.prefKey, source := m.source }

/-- What a second write of an id replaces: not the tier, not the origin. -/
def MemoryRow.overwrite (m : NewMemory) (r : MemoryRow) : MemoryRow :=
  { r with
    text := m.text, keywords := m.keywords, importance := m.importance
    contentHash := m.contentHash, prefKey := m.prefKey, source := m.source }

/-- The importance a promoted or merged memory has at least: 0.6, as a double. -/
def minImportance : ℚ := 5404319552844595 / 9007199254740992

/-- A memory of the test runs. -/
def testMemory (id : String) (tier : Tier) (text : String) : NewMemory :=
  { id, tier, origin := .owner, text, keywords := none, importance := 1 / 2, contentHash := id
    prefKey := none, source := none }

namespace MemDb

def empty : MemDb := { memory := [], memoryFts := [] }

/-! ## Statements -/

def find (db : MemDb) (id : String) : Option MemoryRow := db.memory.find? (·.id = id)

/-- `SELECT no FROM memory WHERE id = ?`. -/
def noOf (db : MemDb) (id : String) : Option Nat := (db.find id).map (·.no)

/-- The row number SQLite gives out: one more than the largest there is. -/
def nextNo (db : MemDb) : Nat := (db.memory.map (·.no)).foldr max 0 + 1

def updateWhere (p : MemoryRow → Bool) (f : MemoryRow → MemoryRow) (db : MemDb) : MemDb :=
  { db with memory := db.memory.map fun r => if p r then f r else r }

/-- `INSERT … ON CONFLICT(id) DO UPDATE`. -/
def insertMemory (m : NewMemory) (now : Int) (db : MemDb) : MemDb :=
  match db.find m.id with
  | some _ => db.updateWhere (·.id = m.id) (.overwrite m)
  | none => { db with memory := db.memory ++ [.new m db.nextNo now] }

def deleteNo (no : Nat) (db : MemDb) : MemDb :=
  { memory := db.memory.filter (·.no ≠ no), memoryFts := db.memoryFts.filter (·.rowid ≠ no) }

variable (U : Unicode)

/-- Remove the old document and insert the new one: inserting alone would add its terms to the old ones. -/
def indexMemoryText (no : Nat) (text : String) (db : MemDb) : MemDb :=
  { db with memoryFts := db.memoryFts.filter (·.rowid ≠ no) ++ [{ rowid := no, terms := Fts.encodeDoc U text }] }

/-! ## Operations -/

def upsertMemory (m : NewMemory) (now : Int) (db : MemDb) : MemDb :=
  let db := db.insertMemory m now
  match db.noOf m.id with
  | some no => db.indexMemoryText U no m.text
  | none => db

def touchMemory (id : String) (usedAt : Int) (db : MemDb) : MemDb :=
  db.updateWhere (·.id = id) fun r => { r with lastUsedAt := some usedAt, useCount := r.useCount + 1 }

/-- Only an episodic memory is promoted. -/
def promoteMemory (id : String) (db : MemDb) : MemDb :=
  db.updateWhere (fun r => r.id = id ∧ r.tier = .episodic) fun r =>
    { r with tier := .curated, importance := max r.importance minImportance }

/-- The text a merge writes into its target. -/
def mergedInto (text hash : String) (r : MemoryRow) : MemoryRow :=
  { r with text, importance := max r.importance minImportance, contentHash := hash }

/-- Without a target nothing is merged; a memory merged into itself is only rewritten. -/
def mergeMemory (sourceId targetId mergedText mergedContentHash : String) (db : MemDb) : MemDb :=
  match db.noOf targetId with
  | none => db
  | some targetNo =>
    let db := db.updateWhere (·.no = targetNo) (mergedInto mergedText mergedContentHash)
    let db := db.indexMemoryText U targetNo mergedText
    if sourceId ≠ targetId then
      match db.noOf sourceId with
      | some srcNo => db.deleteNo srcNo
      | none => db
    else db

def deleteMemory (id : String) (db : MemDb) : MemDb :=
  match db.noOf id with
  | some no => db.deleteNo no
  | none => db

inductive Op where
  | upsert (m : NewMemory) (now : Int)
  | touch (id : String) (usedAt : Int)
  | promote (id : String)
  | merge (sourceId targetId mergedText mergedContentHash : String)
  | delete (id : String)
deriving DecidableEq, Repr

def apply (db : MemDb) : Op → MemDb
  | .upsert m now => db.upsertMemory U m now
  | .touch id usedAt => db.touchMemory id usedAt
  | .promote id => db.promoteMemory id
  | .merge sourceId targetId mergedText hash => db.mergeMemory U sourceId targetId mergedText hash
  | .delete id => db.deleteMemory id

/-- An operation that is committed, or that fails at one of its statements and is rolled back. -/
inductive Act where
  | commits (op : Op)
  | fails (op : Op)
deriving DecidableEq, Repr

def step (db : MemDb) : Act → Option MemDb
  | .commits op => some (db.apply U op)
  | .fails _ => some db

/-! ## Soundness -/

/-- The document of a row. -/
def doc (r : MemoryRow) : FtsRow := { rowid := r.no, terms := Fts.encodeDoc U r.text }

/-- Row numbers rise, ids are unique and the index holds one document for each row, with the terms of its
text as it is. -/
structure Sound (db : MemDb) : Prop where
  rising : (db.memory.map (·.no)).Pairwise (· < ·)
  ids : (db.memory.map (·.id)).Nodup
  indexed : db.memoryFts.Perm (db.memory.map (doc U))

section Statements

variable {U} {db : MemDb} {id : String} {r : MemoryRow}

theorem find_eq_some (h : db.find id = some r) : r ∈ db.memory ∧ r.id = id :=
  ⟨List.mem_of_find?_eq_some h, by simpa using List.find?_some h⟩

theorem find_eq_none (h : db.find id = none) : ∀ r ∈ db.memory, r.id ≠ id := by
  simpa [find] using h

theorem noOf_eq_some {no : Nat} (h : db.noOf id = some no) : ∃ r ∈ db.memory, r.id = id ∧ r.no = no := by
  obtain ⟨r, hr, rfl⟩ := Option.map_eq_some_iff.1 h
  exact ⟨r, (find_eq_some hr).1, (find_eq_some hr).2, rfl⟩

theorem lt_nextNo (h : r ∈ db.memory) : r.no < db.nextNo := by
  have hle : ∀ (ns : List Nat) (n : Nat), n ∈ ns → n ≤ ns.foldr max 0 := by
    intro ns n hn
    induction ns with
    | nil => simp at hn
    | cons m ns ih =>
      rw [List.foldr_cons]
      rcases List.mem_cons.1 hn with rfl | hn
      · exact Nat.le_max_left _ _
      · exact (ih hn).trans (Nat.le_max_right _ _)
  exact Nat.lt_succ_of_le (hle _ _ (List.mem_map_of_mem h))

/-- An update leaves alone what it does not write. -/
theorem map_updateWhere {β : Type*} {g : MemoryRow → β} {p : MemoryRow → Bool} {f : MemoryRow → MemoryRow}
    (h : ∀ r, p r = true → g (f r) = g r) : (db.updateWhere p f).memory.map g = db.memory.map g := by
  simp only [updateWhere, List.map_map]
  apply List.map_congr_left
  intro r _
  by_cases hp : p r = true
  · simp [hp, h r hp]
  · simp [hp]

theorem mem_updateWhere {p : MemoryRow → Bool} {f : MemoryRow → MemoryRow} :
    r ∈ (db.updateWhere p f).memory ↔ ∃ r' ∈ db.memory, (if p r' then f r' else r') = r := List.mem_map

theorem rising_updateWhere {p : MemoryRow → Bool} {f : MemoryRow → MemoryRow}
    (h : (db.memory.map (·.no)).Pairwise (· < ·)) (hno : ∀ r, (f r).no = r.no) :
    ((db.updateWhere p f).memory.map (·.no)).Pairwise (· < ·) := by
  rw [map_updateWhere (f := f) fun r _ => hno r]
  exact h

theorem ids_updateWhere {p : MemoryRow → Bool} {f : MemoryRow → MemoryRow} (h : (db.memory.map (·.id)).Nodup)
    (hid : ∀ r, (f r).id = r.id) : ((db.updateWhere p f).memory.map (·.id)).Nodup := by
  rw [map_updateWhere (f := f) fun r _ => hid r]
  exact h

/-- An update of the row with one number leaves the others. -/
theorem filter_updateWhere {p : MemoryRow → Bool} {f : MemoryRow → MemoryRow} {n : Nat}
    (hno : ∀ r, (f r).no = r.no) (hp : ∀ r ∈ db.memory, p r = true → r.no = n) :
    (db.updateWhere p f).memory.filter (·.no ≠ n) = db.memory.filter (·.no ≠ n) := by
  unfold updateWhere
  simp only
  generalize db.memory = rows at hp ⊢
  induction rows with
  | nil => rfl
  | cons r rows ih =>
    have hrest := ih fun r' hr' => hp r' (List.mem_cons_of_mem _ hr')
    rw [List.map_cons, List.filter_cons, List.filter_cons, hrest]
    by_cases hpr : p r = true
    · have hn := hp r List.mem_cons_self hpr
      simp [hpr, hno, hn]
    · simp [hpr]

theorem eq_of_no (h : (db.memory.map (·.no)).Pairwise (· < ·)) {r r' : MemoryRow} (hr : r ∈ db.memory)
    (hr' : r' ∈ db.memory) (hno : r.no = r'.no) : r = r' :=
  List.inj_on_of_nodup_map (h.imp Nat.ne_of_lt) hr hr' hno

theorem eq_of_id (h : (db.memory.map (·.id)).Nodup) {r r' : MemoryRow} (hr : r ∈ db.memory)
    (hr' : r' ∈ db.memory) (hid : r.id = r'.id) : r = r' := List.inj_on_of_nodup_map h hr hr' hid

/-- The rows with a given number, if numbers are unique. -/
theorem filter_no (h : (db.memory.map (·.no)).Pairwise (· < ·)) (hr : r ∈ db.memory) :
    db.memory.filter (·.no = r.no) = [r] := by
  have hnodup : db.memory.Nodup := List.Nodup.of_map _ (h.imp Nat.ne_of_lt)
  have hsame : db.memory.filter (·.no = r.no) = db.memory.filter (· = r) := by
    apply List.filter_congr
    intro r' hr'
    rw [decide_eq_decide]
    exact ⟨fun hno => eq_of_no h hr' hr hno, fun heq => heq ▸ rfl⟩
  rw [hsame, List.filter_eq, List.count_eq_one_of_mem hnodup hr]
  rfl

/-! ## What keeps the index sound -/

/-- A document is made anew for one row, and the other rows still have theirs. -/
theorem Sound.reindex {db' : MemDb} (h : db.Sound U) (hrising : (db'.memory.map (·.no)).Pairwise (· < ·))
    (hids : (db'.memory.map (·.id)).Nodup) (hr : r ∈ db'.memory) (hfts : db'.memoryFts = db.memoryFts)
    (hrest : (db'.memory.filter (·.no ≠ r.no)).map (doc U) = (db.memory.filter (·.no ≠ r.no)).map (doc U)) :
    (db'.indexMemoryText U r.no r.text).Sound U := by
  refine ⟨hrising, hids, ?_⟩
  have hothers : (db'.memoryFts.filter (·.rowid ≠ r.no)).Perm ((db'.memory.filter (·.no ≠ r.no)).map (doc U)) := by
    rw [hfts, hrest]
    have := h.indexed.filter (·.rowid ≠ r.no)
    rwa [List.filter_map] at this
  have hsplit : (db'.memory.filter (·.no ≠ r.no) ++ db'.memory.filter (·.no = r.no)).Perm db'.memory := by
    have := List.filter_append_perm (fun x : MemoryRow => decide (x.no ≠ r.no)) db'.memory
    simpa using this
  rw [filter_no hrising hr] at hsplit
  have hmap := hsplit.map (doc U)
  rw [List.map_append] at hmap
  exact (hothers.append_right _).trans hmap

/-- Rows are written and their texts stay. -/
theorem Sound.updateWhere {p : MemoryRow → Bool} {f : MemoryRow → MemoryRow} (h : db.Sound U)
    (hno : ∀ r, (f r).no = r.no) (hid : ∀ r, (f r).id = r.id) (htext : ∀ r, (f r).text = r.text) :
    (db.updateWhere p f).Sound U := by
  refine ⟨?_, ?_, ?_⟩
  · exact rising_updateWhere h.rising hno
  · exact ids_updateWhere h.ids hid
  · rw [map_updateWhere (g := doc U) fun r _ => by unfold doc; rw [hno, htext]]
    exact h.indexed

theorem Sound.deleteNo (h : db.Sound U) (no : Nat) : (db.deleteNo no).Sound U := by
  refine ⟨h.rising.sublist (List.filter_sublist.map _), h.ids.sublist (List.filter_sublist.map _), ?_⟩
  have := h.indexed.filter (·.rowid ≠ no)
  rwa [List.filter_map] at this

/-! ## The operations -/

/-- A written row keeps its number and its tier and origin, whichever they were. -/
theorem insertMemory_spec (h : db.Sound U) (m : NewMemory) (now : Int) :
    ((db.insertMemory m now).memory.map (·.no)).Pairwise (· < ·) ∧
      ((db.insertMemory m now).memory.map (·.id)).Nodup ∧ (db.insertMemory m now).memoryFts = db.memoryFts ∧
      ∃ r ∈ (db.insertMemory m now).memory, (db.insertMemory m now).find m.id = some r ∧ r.text = m.text ∧
        (db.insertMemory m now).memory.filter (·.no ≠ r.no) = db.memory.filter (·.no ≠ r.no) := by
  unfold insertMemory
  cases hfind : db.find m.id with
  | some r =>
    obtain ⟨hr, hid⟩ := find_eq_some hfind
    have hids := ids_updateWhere (p := (·.id = m.id)) (f := MemoryRow.overwrite m) h.ids fun _ => rfl
    have hmem : r.overwrite m ∈ (db.updateWhere (·.id = m.id) (.overwrite m)).memory :=
      mem_updateWhere.2 ⟨r, hr, by simp [hid]⟩
    refine ⟨rising_updateWhere h.rising fun _ => rfl, hids, rfl, r.overwrite m, hmem, ?_, rfl, ?_⟩
    · cases hnew : (db.updateWhere (·.id = m.id) (.overwrite m)).find m.id with
      | none => exact absurd hid (find_eq_none hnew (r.overwrite m) hmem)
      | some r' =>
        obtain ⟨hr', hid'⟩ := find_eq_some hnew
        rw [eq_of_id hids hr' hmem (hid'.trans hid.symm)]
    · refine filter_updateWhere (f := MemoryRow.overwrite m) (fun _ => rfl) ?_
      intro r' hr' hid'
      have hid' : r'.id = m.id := by simpa using hid'
      rw [eq_of_id h.ids hr' hr (hid'.trans hid.symm)]
      rfl
  | none =>
    have hlt : ∀ r ∈ db.memory, r.no < db.nextNo := fun r hr => lt_nextNo hr
    refine ⟨?_, ?_, rfl, .new m db.nextNo now, by simp, ?_, rfl, ?_⟩
    · rw [List.map_append, List.pairwise_append]
      refine ⟨h.rising, List.pairwise_singleton _ _, ?_⟩
      intro n hn n' hn'
      obtain ⟨r, hr, rfl⟩ := List.mem_map.1 hn
      rw [List.mem_singleton.1 hn']
      exact hlt r hr
    · rw [List.map_append, List.nodup_append]
      refine ⟨h.ids, List.nodup_singleton _, ?_⟩
      intro id hid id' hid' heq
      obtain ⟨r, hr, rfl⟩ := List.mem_map.1 hid
      rw [List.mem_singleton.1 hid'] at heq
      exact find_eq_none hfind r hr heq
    · have hnone : db.memory.find? (·.id = m.id) = none := hfind
      simp [find, List.find?_append, hnone, MemoryRow.new]
    · show (db.memory ++ [_]).filter _ = _
      rw [List.filter_append]
      simp [MemoryRow.new]

theorem sound_upsertMemory (h : db.Sound U) (m : NewMemory) (now : Int) : (db.upsertMemory U m now).Sound U := by
  obtain ⟨hrising, hids, hfts, r, hr, hfind, htext, hrest⟩ := insertMemory_spec h m now
  have hno : (db.insertMemory m now).noOf m.id = some r.no := by
    unfold noOf
    rw [hfind]
    rfl
  unfold upsertMemory
  simp only [hno]
  rw [← htext]
  exact h.reindex hrising hids hr hfts (by rw [hrest])

/-- The target's text and its document change together. -/
theorem sound_rewrite (h : db.Sound U) (text hash : String) {no : Nat} (hr : r ∈ db.memory) (hno : r.no = no) :
    ((db.updateWhere (·.no = no) (mergedInto text hash)).indexMemoryText U no text).Sound U := by
  subst hno
  refine h.reindex (r := mergedInto text hash r) (rising_updateWhere h.rising fun _ => rfl)
    (ids_updateWhere h.ids fun _ => rfl) (mem_updateWhere.2 ⟨r, hr, by simp⟩) rfl ?_
  refine congrArg _ (filter_updateWhere (f := mergedInto text hash) (fun _ => rfl) ?_)
  intro r' _ hno
  exact of_decide_eq_true hno

theorem sound_mergeMemory (h : db.Sound U) (sourceId targetId mergedText hash : String) :
    (db.mergeMemory U sourceId targetId mergedText hash).Sound U := by
  unfold mergeMemory
  split
  · exact h
  · next no hno =>
    obtain ⟨r, hr, -, hrno⟩ := noOf_eq_some hno
    have hrewritten := sound_rewrite h mergedText hash hr hrno
    simp only
    split
    · split
      · exact hrewritten.deleteNo _
      · exact hrewritten
    · exact hrewritten

theorem sound_deleteMemory (h : db.Sound U) (id : String) : (db.deleteMemory id).Sound U := by
  unfold deleteMemory
  split
  · exact h.deleteNo _
  · exact h

theorem sound_empty : empty.Sound U := ⟨.nil, .nil, .nil⟩

/-- An operation keeps a row and a document together, done or not. -/
theorem sound_step {db' : MemDb} {a : Act} (h : db.Sound U) (hstep : db.step U a = some db') : db'.Sound U := by
  cases a with
  | fails op =>
    obtain rfl := Option.some.inj hstep
    exact h
  | commits op =>
    obtain rfl := Option.some.inj hstep
    cases op with
    | upsert m now => exact sound_upsertMemory h m now
    | touch id usedAt => exact h.updateWhere (fun _ => rfl) (fun _ => rfl) fun _ => rfl
    | promote id => exact h.updateWhere (fun _ => rfl) (fun _ => rfl) fun _ => rfl
    | merge sourceId targetId mergedText hash => exact sound_mergeMemory h sourceId targetId mergedText hash
    | delete id => exact sound_deleteMemory h id

/-- The stores any run of operations leads to. -/
theorem sound_of_run {acts : List Act} (hrun : Steps.exec (step U) empty acts = some db) : db.Sound U :=
  Steps.exec_invariant (I := Sound U) (fun _ _ _ h hs => sound_step h hs) sound_empty hrun

end Statements

end MemDb

end OhMyClaw
