import OhMyClaw.Store.Memory
import OhMyClaw.Store.Transcript

/-!
# Rows of the memory table

The statements that list memories, and what an operation does to one row of the table, whatever
the others are.

    memory_apply    an operation, row by row
    memory_run      a run of promotions and merges: each row has a fate of its own
-/

namespace OhMyClaw

/-- The order in which SQLite comes upon rows; those an ORDER BY leaves equal stay in it. -/
structure RowOrder where
  visit : List MemoryRow → List MemoryRow
  perm : ∀ rows, (visit rows).Perm rows

/-- The order of the table itself. -/
def RowOrder.table : RowOrder := { visit := id, perm := fun _ => .refl _ }

namespace MemDb

/-! ## Listing -/

/-- `ORDER BY use_count DESC, created_at ASC LIMIT`. -/
def dreamCandidates (O : RowOrder) (limit : Int) (db : MemDb) : List MemoryRow :=
  sqlLimit limit ((O.visit (db.memory.filter (·.tier = .episodic))).insertionSort fun a b =>
    b.useCount < a.useCount ∨ a.useCount = b.useCount ∧ a.createdAt ≤ b.createdAt)

/-- `ORDER BY no`. -/
def curatedList (db : MemDb) : List (String × String) :=
  ((db.memory.filter (·.tier = .curated)).insertionSort fun a b => a.no ≤ b.no).map fun r => (r.id, r.text)

/-- `ORDER BY created_at`. -/
def memoryByPrefKey (O : RowOrder) (key : String) (db : MemDb) : List MemoryRow :=
  (O.visit (db.memory.filter fun r => r.prefKey = some key ∧ r.tier = .curated)).insertionSort fun a b =>
    a.createdAt ≤ b.createdAt

theorem mem_of_dreamCandidates {O : RowOrder} {limit : Int} {db : MemDb} {r : MemoryRow}
    (h : r ∈ db.dreamCandidates O limit) : r ∈ db.memory ∧ r.tier = .episodic := by
  unfold dreamCandidates sqlLimit at h
  have hmem : r ∈ db.memory.filter (·.tier = .episodic) := by
    split at h
    · rwa [List.mem_insertionSort, (O.perm _).mem_iff] at h
    · have h := List.mem_of_mem_take h
      rwa [List.mem_insertionSort, (O.perm _).mem_iff] at h
  simpa using hmem

theorem mem_curatedList {db : MemDb} {p : String × String} :
    p ∈ db.curatedList ↔ ∃ r ∈ db.memory, r.tier = .curated ∧ (r.id, r.text) = p := by
  unfold curatedList
  simp [List.mem_insertionSort, and_assoc]

theorem mem_memoryByPrefKey {O : RowOrder} {key : String} {db : MemDb} {r : MemoryRow} :
    r ∈ db.memoryByPrefKey O key ↔ r ∈ db.memory ∧ r.prefKey = some key ∧ r.tier = .curated := by
  unfold memoryByPrefKey
  rw [List.mem_insertionSort, (O.perm _).mem_iff]
  simp

/-! ## One row -/

def promoted (r : MemoryRow) : MemoryRow :=
  { r with tier := .curated, importance := max r.importance minImportance }

/-- What becomes of a row, if the operation finds what it writes to. -/
def Op.onRow : Op → MemoryRow → Option MemoryRow
  | .upsert m _, r => some (if r.id = m.id then r.overwrite m else r)
  | .touch id usedAt, r => some (if r.id = id then { r with lastUsedAt := some usedAt, useCount := r.useCount + 1 } else r)
  | .promote id, r => some (if r.id = id ∧ r.tier = .episodic then promoted r else r)
  | .merge sourceId targetId text hash, r =>
    if r.id = targetId then some (mergedInto text hash r) else if r.id = sourceId then none else some r
  | .delete id, r => if r.id = id then none else some r

/-- The row an operation adds. -/
def Op.newRows (db : MemDb) : Op → List MemoryRow
  | .upsert m now => if (db.find m.id).isNone then [.new m db.nextNo now] else []
  | _ => []

/-- A merge needs its target. -/
def Op.Lands (db : MemDb) : Op → Prop
  | .merge _ targetId _ _ => ∃ r ∈ db.memory, r.id = targetId
  | _ => True

section Rows

variable {U : Unicode} {db : MemDb}

theorem updateWhere_memory (p : MemoryRow → Bool) (f : MemoryRow → MemoryRow) :
    (db.updateWhere p f).memory = db.memory.filterMap fun r => some (if p r then f r else r) := by
  rw [List.filterMap_eq_map']
  rfl

theorem memory_indexMemoryText (no : Nat) (text : String) : (db.indexMemoryText U no text).memory = db.memory := rfl

/-- The row with an id is the row with its number. -/
theorem no_eq_iff (h : db.Sound U) {r r' : MemoryRow} (hr : r ∈ db.memory) (hr' : r' ∈ db.memory) :
    r'.no = r.no ↔ r'.id = r.id :=
  ⟨fun hno => congrArg _ (eq_of_no h.rising hr' hr hno), fun hid => congrArg _ (eq_of_id h.ids hr' hr hid)⟩

theorem memory_deleteNo_eq (h : db.Sound U) {r : MemoryRow} (hr : r ∈ db.memory) :
    (db.deleteNo r.no).memory = db.memory.filterMap fun r' => if r'.id = r.id then none else some r' := by
  unfold deleteNo
  rw [← List.filterMap_eq_filter]
  apply List.filterMap_congr
  intro r' hr'
  by_cases hid : r'.id = r.id
  · simp [hid, (no_eq_iff h hr hr').2 hid]
  · have hno : r'.no ≠ r.no := fun hno => hid ((no_eq_iff h hr hr').1 hno)
    simp [hid, hno]

theorem noOf_eq {r : MemoryRow} (h : db.Sound U) (hr : r ∈ db.memory) : db.noOf r.id = some r.no := by
  unfold noOf
  cases hfind : db.find r.id with
  | none => exact absurd rfl (find_eq_none hfind r hr)
  | some r' =>
    obtain ⟨hr', hid⟩ := find_eq_some hfind
    rw [eq_of_id h.ids hr' hr hid]
    rfl

theorem noOf_eq_none {id : String} (h : ∀ r ∈ db.memory, r.id ≠ id) : db.noOf id = none := by
  unfold noOf find
  rw [Option.map_eq_none_iff, List.find?_eq_none]
  simpa using h

theorem memory_mergeMemory (h : db.Sound U) {sourceId text hash : String} {r : MemoryRow} (hr : r ∈ db.memory) :
    (db.mergeMemory U sourceId r.id text hash).memory =
      db.memory.filterMap (Op.merge sourceId r.id text hash).onRow := by
  have hrewritten := sound_rewrite h text hash hr rfl
  generalize hdb' : (db.updateWhere (·.no = r.no) (mergedInto text hash)).indexMemoryText U r.no text = db' at hrewritten
  have hmemory : db'.memory = db.memory.map fun r' => if r'.id = r.id then mergedInto text hash r' else r' := by
    rw [← hdb', memory_indexMemoryText]
    apply List.map_congr_left
    intro r' hr'
    simp only [decide_eq_true_eq, no_eq_iff h hr hr']
  have hstay : db'.memory = db.memory.filterMap fun r' => some (if r'.id = r.id then mergedInto text hash r' else r') := by
    rw [hmemory, List.filterMap_eq_map']
  unfold mergeMemory
  simp only [noOf_eq h hr, hdb']
  by_cases hself : sourceId = r.id
  · rw [if_neg (not_not.2 hself), hstay]
    apply List.filterMap_congr
    intro r' _
    by_cases hid : r'.id = r.id <;> simp [Op.onRow, hself, hid]
  · rw [if_pos hself]
    by_cases hsource : ∃ s ∈ db'.memory, s.id = sourceId
    · obtain ⟨s, hs, rfl⟩ := hsource
      simp only [noOf_eq hrewritten hs]
      rw [memory_deleteNo_eq hrewritten hs, hmemory, List.filterMap_map]
      apply List.filterMap_congr
      intro r' _
      by_cases hid : r'.id = r.id
      · have hne : ¬ r.id = s.id := fun heq => hself heq.symm
        simp [Op.onRow, hid, mergedInto, hne]
      · simp [Op.onRow, hid]
    · push Not at hsource
      rw [noOf_eq_none hsource]
      simp only
      rw [hstay]
      apply List.filterMap_congr
      intro r' hr'
      have hid : ∀ r' ∈ db.memory, r'.id ≠ sourceId := by
        intro r' hr'
        have := hsource _ (hmemory ▸ List.mem_map_of_mem hr')
        by_cases hid : r'.id = r.id
        · exact fun heq => hself (heq.symm.trans hid)
        · simpa [hid] using this
      by_cases htarget : r'.id = r.id
      · simp [Op.onRow, htarget]
      · simp [Op.onRow, htarget, hid r' hr']

theorem mem_newRows {m : NewMemory} {now : Int} {r : MemoryRow} :
    r ∈ (Op.upsert m now).newRows db ↔ db.find m.id = none ∧ r = .new m db.nextNo now := by
  simp only [Op.newRows, Option.isNone_iff_eq_none]
  split
  · next hnone => simp [hnone]
  · next hsome => simp [hsome]

theorem memory_upsertMemory (m : NewMemory) (now : Int) :
    (db.upsertMemory U m now).memory = db.memory.filterMap (Op.upsert m now).onRow ++ (Op.upsert m now).newRows db := by
  have hinsert : (db.upsertMemory U m now).memory = (db.insertMemory m now).memory := by
    unfold upsertMemory
    simp only
    split <;> rfl
  rw [hinsert]
  unfold insertMemory
  cases hfind : db.find m.id with
  | some r =>
    simp only [updateWhere_memory, Op.newRows, hfind]
    rw [if_neg (by simp), List.append_nil]
    apply List.filterMap_congr
    intro r' _
    simp [Op.onRow]
  | none =>
    have hstay : db.memory.filterMap (Op.upsert m now).onRow = db.memory := by
      rw [← List.filterMap_some (l := db.memory), List.filterMap_filterMap]
      apply List.filterMap_congr
      intro r hr
      simp [Op.onRow, find_eq_none hfind r hr]
    simp [Op.newRows, hfind, hstay]

theorem memory_deleteMemory (h : db.Sound U) (id : String) :
    (db.deleteMemory id).memory = db.memory.filterMap (Op.delete id).onRow := by
  unfold deleteMemory
  by_cases hin : ∃ r ∈ db.memory, r.id = id
  · obtain ⟨r, hr, rfl⟩ := hin
    simp only [noOf_eq h hr]
    exact memory_deleteNo_eq h hr
  · push Not at hin
    rw [noOf_eq_none hin]
    simp only
    rw [← List.filterMap_some (l := db.memory), List.filterMap_filterMap]
    apply List.filterMap_congr
    intro r hr
    simp [Op.onRow, hin r hr]

/-- An operation acts on each row by itself, and may add one. -/
theorem memory_apply (h : db.Sound U) (op : Op) (hlands : op.Lands db) :
    (db.apply U op).memory = db.memory.filterMap op.onRow ++ op.newRows db := by
  cases op with
  | upsert m now => exact memory_upsertMemory m now
  | touch id usedAt =>
    refine Eq.trans ?_ (List.append_nil _).symm
    refine (updateWhere_memory _ _).trans (List.filterMap_congr ?_)
    intro r _
    simp [Op.onRow]
  | promote id =>
    refine Eq.trans ?_ (List.append_nil _).symm
    refine (updateWhere_memory _ _).trans (List.filterMap_congr ?_)
    intro r _
    simp [Op.onRow, promoted]
  | merge sourceId targetId text hash =>
    obtain ⟨r, hr, rfl⟩ := hlands
    exact (memory_mergeMemory h hr).trans (List.append_nil _).symm
  | delete id => exact (memory_deleteMemory h id).trans (List.append_nil _).symm

/-- A row keeps its id and its number. -/
theorem Op.onRow_some {op : Op} {r r' : MemoryRow} (h : op.onRow r = some r') : r'.id = r.id ∧ r'.no = r.no := by
  cases op with
  | upsert m now =>
    obtain rfl := Option.some.inj h
    split <;> exact ⟨rfl, rfl⟩
  | touch id usedAt =>
    obtain rfl := Option.some.inj h
    split <;> exact ⟨rfl, rfl⟩
  | promote id =>
    obtain rfl := Option.some.inj h
    split <;> exact ⟨rfl, rfl⟩
  | merge sourceId targetId text hash =>
    simp only [Op.onRow] at h
    split_ifs at h
    · obtain rfl := Option.some.inj h
      exact ⟨rfl, rfl⟩
    · obtain rfl := Option.some.inj h
      exact ⟨rfl, rfl⟩
  | delete id =>
    simp only [Op.onRow] at h
    split_ifs at h
    obtain rfl := Option.some.inj h
    exact ⟨rfl, rfl⟩

/-! ## Moving memories -/

/-- The operation promotes a memory of `S`, or merges one into a memory of `T`. -/
def Op.Moves (S T : String → Prop) : Op → Prop
  | .promote id => S id
  | .merge sourceId targetId _ _ => S sourceId ∧ T targetId
  | _ => False

/-- What becomes of a row in a run of operations. -/
def fate : List Op → MemoryRow → Option MemoryRow
  | [], r => some r
  | op :: ops, r => (op.onRow r).bind (fate ops)

variable {S T : String → Prop}

theorem Op.Moves.newRows {op : Op} (h : op.Moves S T) : op.newRows db = [] := by
  cases op with
  | upsert m now => exact absurd h not_false
  | _ => rfl

/-- A memory that is not of `S` keeps its row, as it is or with the text of a merge into it. -/
theorem Op.Moves.onRow_of_not {op : Op} (h : op.Moves S T) {r : MemoryRow} (hr : ¬ S r.id) :
    op.onRow r = some r ∨ ∃ sourceId text hash, op = .merge sourceId r.id text hash ∧
      op.onRow r = some (mergedInto text hash r) := by
  cases op with
  | upsert m now => exact absurd h not_false
  | touch id usedAt => exact absurd h not_false
  | delete id => exact absurd h not_false
  | promote id =>
    have hne : r.id ≠ id := fun heq => hr (heq ▸ h)
    exact .inl (by simp [Op.onRow, hne])
  | merge sourceId targetId text hash =>
    have hne : r.id ≠ sourceId := fun heq => hr (heq ▸ h.1)
    by_cases htarget : r.id = targetId
    · exact .inr ⟨sourceId, text, hash, htarget ▸ rfl, by simp [Op.onRow, htarget]⟩
    · exact .inl (by simp [Op.onRow, htarget, hne])

/-- In a run that only moves memories of `S` into other memories each row has a fate of its own. -/
theorem memory_run {ops : List Op} (h : db.Sound U) (hmoves : ∀ op ∈ ops, op.Moves S T)
    (hapart : ∀ id, T id → ¬ S id) (hthere : ∀ id, T id → ∃ r ∈ db.memory, r.id = id) :
    (ops.foldl (MemDb.apply U) db).memory = db.memory.filterMap (fate ops) := by
  induction ops generalizing db with
  | nil => simp [fate]
  | cons op ops ih =>
    have hop := hmoves op List.mem_cons_self
    have hlands : op.Lands db := by
      cases op with
      | merge sourceId targetId text hash => exact hthere _ hop.2
      | _ => trivial
    have happly := memory_apply h op hlands
    rw [hop.newRows, List.append_nil] at happly
    have hsound : (db.apply U op).Sound U := sound_step h (a := .commits op) rfl
    have hstill : ∀ id, T id → ∃ r ∈ (db.apply U op).memory, r.id = id := by
      intro id hid
      obtain ⟨r, hr, rfl⟩ := hthere id hid
      obtain ⟨r', hr'⟩ : ∃ r', op.onRow r = some r' := by
        rcases hop.onRow_of_not (hapart _ hid) with hsame | ⟨_, _, _, _, hmerged⟩
        · exact ⟨_, hsame⟩
        · exact ⟨_, hmerged⟩
      exact ⟨r', happly ▸ List.mem_filterMap.2 ⟨r, hr, hr'⟩, (Op.onRow_some hr').1⟩
    show (ops.foldl (MemDb.apply U) (db.apply U op)).memory = _
    rw [ih hsound (fun op' h' => hmoves op' (List.mem_cons_of_mem _ h')) hstill, happly,
      List.filterMap_filterMap]
    rfl

theorem fate_some {ops : List Op} {r r' : MemoryRow} (h : fate ops r = some r') : r'.id = r.id ∧ r'.no = r.no := by
  induction ops generalizing r with
  | nil =>
    obtain rfl := Option.some.inj h
    exact ⟨rfl, rfl⟩
  | cons op ops ih =>
    obtain ⟨r'', hop, hrest⟩ := Option.bind_eq_some_iff.1 h
    obtain ⟨hid, hno⟩ := ih hrest
    obtain ⟨hid', hno'⟩ := Op.onRow_some hop
    exact ⟨hid.trans hid', hno.trans hno'⟩

/-- A row that is not of `S` stays as it is, or is what the last merge into it made of it. -/
theorem fate_of_not {ops : List Op} (hmoves : ∀ op ∈ ops, op.Moves S T) {r : MemoryRow} (hr : ¬ S r.id) :
    ∃ r', fate ops r = some r' ∧ (r' = r ∨ ∃ sourceId text hash, Op.merge sourceId r.id text hash ∈ ops ∧ r' = mergedInto text hash r) := by
  induction ops generalizing r with
  | nil => exact ⟨r, rfl, .inl rfl⟩
  | cons op ops ih =>
    have hmoves' : ∀ op ∈ ops, op.Moves S T := fun op' h' => hmoves op' (List.mem_cons_of_mem _ h')
    rw [fate]
    rcases (hmoves op List.mem_cons_self).onRow_of_not hr with hsame | ⟨sourceId, text, hash, rfl, hmerged⟩
    · obtain ⟨r', hfate, hcase⟩ := ih hmoves' hr
      refine ⟨r', by rw [hsame, Option.bind_some, hfate], ?_⟩
      exact hcase.imp_right fun ⟨s, text, hash, hmem, heq⟩ => ⟨s, text, hash, List.mem_cons_of_mem _ hmem, heq⟩
    · obtain ⟨r', hfate, hcase⟩ := ih (r := mergedInto text hash r) hmoves' hr
      refine ⟨r', by rw [hmerged, Option.bind_some, hfate], .inr ?_⟩
      rcases hcase with rfl | ⟨s, text', hash', hmem, rfl⟩
      · exact ⟨sourceId, text, hash, List.mem_cons_self, rfl⟩
      · -- a second merge leaves nothing of the first but the importance, which it does not raise again
        refine ⟨s, text', hash', List.mem_cons_of_mem _ hmem, ?_⟩
        simp [mergedInto]

end Rows

end MemDb

end OhMyClaw
