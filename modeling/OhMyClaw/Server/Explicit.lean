import OhMyClaw.Server.Episodic

/-!
# Explicit memories

What the user orders to be remembered is written as a curated memory of the owner; an older
preference on the same topic is deleted once the new one is written.  The write goes to the row with
the text's id, if there is one, and leaves it the tier and the origin it has.

    owns_upsert_iff     what a write gives to the owner
    remembered_iff      when the text ends up as a curated memory of the owner
-/

namespace OhMyClaw

/-- All that the writing of an explicit memory depends on besides the store and the message; the last three
say whether the query, the write and the deletion succeed. -/
structure RememberRun where
  sessionId : String
  toLowercase : List Char → List Char
  order : RowOrder
  now : Int
  reads : Bool
  writes : Bool
  deletes : Bool

/-- 0.8, as a double. -/
def explicitImportance : ℚ := 3602879701896397 / 4503599627370496

namespace RememberRun

variable (q : RememberRun)

/-- What becomes of the preferences on the topic; without a topic, or without an answer from the store, the
memory is added to them. -/
def plan (content : String) (db : MemDb) : SupersedePlan :=
  match extractPrefKey q.toLowercase content with
  | some key =>
    if q.reads then
      supersede ((db.memoryByPrefKey q.order key).map fun r => { id := r.id, key, value := r.text })
        { id := memoryId content, key, value := content }
    else .add
  | none => .add

def explicitMemory (content : String) : NewMemory :=
  { id := memoryId content, tier := .curated, origin := .owner, text := content, keywords := none
    importance := explicitImportance, contentHash := hashHex content
    prefKey := extractPrefKey q.toLowercase content, source := some q.sessionId }

/-- The new memory is written before the old one is deleted: if the first fails nothing is lost. -/
def persistExplicitMemory (U : Unicode) (userMsg : String) (db : MemDb) : MemDb :=
  match detectExplicitMemory q.toLowercase userMsg with
  | none => db
  | some content =>
    match q.plan content db with
    | .ignore => db
    | .add => if q.writes then db.upsertMemory U (q.explicitMemory content) q.now else db
    | .replace oldId =>
      if q.writes then
        let db := db.upsertMemory U (q.explicitMemory content) q.now
        -- the row with the old id is the one just written
        if oldId = memoryId content then db
        else if q.deletes then db.deleteMemory oldId else db
      else db

/-! ## What is remembered -/

/-- No read and no write fails. -/
structure Faultless : Prop where
  reads : q.reads = true
  writes : q.writes = true
  deletes : q.deletes = true

end RememberRun

/-- The text is a curated memory of the owner. -/
def MemDb.Owns (db : MemDb) (text : String) : Prop :=
  ∃ r ∈ db.memory, r.text = text ∧ r.tier = .curated ∧ r.origin = .owner

/-- The text is remembered, and no preference was deleted for nothing. -/
structure Remembered (db after : MemDb) (text : String) : Prop where
  owns : after.Owns text
  deleted : ∀ r ∈ db.memory, r.prefKey ≠ none → (∀ r' ∈ after.memory, r'.id ≠ r.id) → after.Owns text

/-- The row a write would go to, if there is one, is a curated memory of the owner. -/
def MemDb.Admits (db : MemDb) (id : String) : Prop :=
  ∀ r ∈ db.memory, r.id = id → r.tier = .curated ∧ r.origin = .owner

section Remember

variable {q : RememberRun} {U : Unicode} {db : MemDb} {content : String}

/-- What a plan replaces is a preference on the topic of the text, and has another text. -/
theorem exists_of_replace {oldId : String} (h : q.plan content db = .replace oldId) :
    ∃ key, extractPrefKey q.toLowercase content = some key ∧
      ∃ r ∈ db.memory, r.id = oldId ∧ r.prefKey = some key ∧ r.text ≠ content := by
  unfold RememberRun.plan at h
  split at h
  · next key hkey =>
    refine ⟨key, hkey, ?_⟩
    split at h
    · unfold supersede at h
      split at h
      · next e hfind =>
        split at h
        · cases h
        · next hvalue =>
          obtain ⟨r, hr, rfl⟩ := List.mem_map.1 (List.mem_of_find?_eq_some hfind)
          obtain ⟨hmem, hrkey, -⟩ := MemDb.mem_memoryByPrefKey.1 hr
          exact ⟨r, hmem, SupersedePlan.replace.inj h, hrkey, hvalue⟩
      · cases h
    · cases h
  · cases h

/-- Only a preference with another text is replaced. -/
theorem text_ne_of_replace {oldId : String} (hids : (db.memory.map (·.id)).Nodup)
    (h : q.plan content db = .replace oldId) : ∀ r ∈ db.memory, r.id = oldId → r.text ≠ content := by
  intro r hr hid
  obtain ⟨_, -, r', hr', hid', -, htext⟩ := exists_of_replace h
  obtain rfl := MemDb.eq_of_id hids hr hr' (hid.trans hid'.symm)
  exact htext

/-- A write of the memory gives the text to the owner exactly if it had it, or the row written to is the
owner's. -/
theorem owns_upsert_iff (h : db.Sound U) {m : NewMemory} (hm : m.text = content ∧ m.tier = .curated ∧ m.origin = .owner)
    (now : Int) : (db.upsertMemory U m now).Owns content ↔ db.Owns content ∨ db.Admits m.id := by
  unfold MemDb.Owns
  rw [MemDb.memory_upsertMemory]
  simp only [List.mem_append, List.mem_filterMap]
  constructor
  · rintro ⟨r', ⟨r, hr, hrow⟩ | hnew, htext, htier, horigin⟩
    · obtain rfl := Option.some.inj hrow
      by_cases hid : r.id = m.id
      · rw [if_pos hid] at htier horigin
        refine .inr fun r'' hr'' hid'' => ?_
        obtain rfl := MemDb.eq_of_id h.ids hr'' hr (hid''.trans hid.symm)
        exact ⟨htier, horigin⟩
      · rw [if_neg hid] at htext htier horigin
        exact .inl ⟨r, hr, htext, htier, horigin⟩
    · exact .inr fun r hr hid => absurd hid (MemDb.find_eq_none (MemDb.mem_newRows.1 hnew).1 r hr)
  · rintro (⟨r, hr, htext, htier, horigin⟩ | hadmits)
    · refine ⟨_, .inl ⟨r, hr, rfl⟩, ?_⟩
      by_cases hid : r.id = m.id
      · rw [if_pos hid]
        exact ⟨hm.1, htier, horigin⟩
      · rw [if_neg hid]
        exact ⟨htext, htier, horigin⟩
    · cases hfind : db.find m.id with
      | some r =>
        obtain ⟨hr, hid⟩ := MemDb.find_eq_some hfind
        refine ⟨_, .inl ⟨r, hr, rfl⟩, ?_⟩
        rw [if_pos hid]
        exact ⟨hm.1, hadmits r hr hid⟩
      | none =>
        exact ⟨.new m db.nextNo now, .inr (MemDb.mem_newRows.2 ⟨hfind, rfl⟩), hm⟩

/-- A deletion takes no text from the owner but the deleted row's. -/
theorem owns_deleteMemory_iff (h : db.Sound U) {id : String} (hne : ∀ r ∈ db.memory, r.id = id → r.text ≠ content) :
    (db.deleteMemory id).Owns content ↔ db.Owns content := by
  unfold MemDb.Owns
  rw [MemDb.memory_deleteMemory h]
  constructor
  · rintro ⟨r', hr', hown⟩
    obtain ⟨r, hr, hrow⟩ := List.mem_filterMap.1 hr'
    unfold MemDb.Op.onRow at hrow
    simp only at hrow
    split_ifs at hrow
    obtain rfl := Option.some.inj hrow
    exact ⟨r, hr, hown⟩
  · rintro ⟨r, hr, hown⟩
    have hid : r.id ≠ id := fun hid => hne r hr hid hown.1
    exact ⟨r, List.mem_filterMap.2 ⟨r, hr, by simp [MemDb.Op.onRow, hid]⟩, hown⟩

/-- The text of another row than the one written to is as before. -/
theorem text_of_upsert {m : NewMemory} {now : Int} {id : String} (hid : id ≠ m.id)
    (hne : ∀ r ∈ db.memory, r.id = id → r.text ≠ content) :
    ∀ r ∈ (db.upsertMemory U m now).memory, r.id = id → r.text ≠ content := by
  intro r' hr' hid'
  rw [MemDb.memory_upsertMemory, List.mem_append, List.mem_filterMap] at hr'
  rcases hr' with ⟨r, hr, hrow⟩ | hnew
  · obtain rfl := Option.some.inj hrow
    by_cases heq : r.id = m.id
    · rw [if_pos heq] at hid'
      exact absurd (hid'.symm.trans heq) hid
    · rw [if_neg heq] at hid' ⊢
      exact hne r hr hid'
  · obtain ⟨-, rfl⟩ := MemDb.mem_newRows.1 hnew
    exact absurd hid'.symm hid

/-- What a message leaves to the owner. -/
theorem owns_persist_iff (h : db.Sound U) (hok : q.Faultless) {userMsg : String}
    (hdetect : detectExplicitMemory q.toLowercase userMsg = some content) :
    (q.persistExplicitMemory U userMsg db).Owns content ↔
      db.Owns content ∨ q.plan content db ≠ .ignore ∧ db.Admits (memoryId content) := by
  have hwrite : (db.upsertMemory U (q.explicitMemory content) q.now).Owns content ↔
      db.Owns content ∨ db.Admits (memoryId content) := owns_upsert_iff h ⟨rfl, rfl, rfl⟩ q.now
  unfold RememberRun.persistExplicitMemory
  simp only [hdetect, hok.writes, hok.deletes, if_true]
  cases hplan : q.plan content db with
  | ignore => simp
  | add => simpa using hwrite
  | replace oldId =>
    simp only [ne_eq, reduceCtorEq, not_false_eq_true, true_and]
    by_cases hsame : oldId = memoryId content
    · rw [if_pos hsame]
      exact hwrite
    · rw [if_neg hsame]
      have hsound := MemDb.sound_upsertMemory h (q.explicitMemory content) q.now
      rw [owns_deleteMemory_iff hsound (text_of_upsert hsame (text_ne_of_replace h.ids hplan))]
      exact hwrite

/-- What the user orders to be remembered ends up as a curated memory of the owner exactly if it was one
before, or the order is not taken for a preference the store has already and the row with the text's id,
if there is one, is a curated memory of the owner. -/
theorem remembered_iff (q : RememberRun) (U : Unicode) (userMsg content : String) (db : MemDb) (h : db.Sound U)
    (hok : q.Faultless) (hdetect : detectExplicitMemory q.toLowercase userMsg = some content) :
    Remembered db (q.persistExplicitMemory U userMsg db) content ↔
      db.Owns content ∨ q.plan content db ≠ .ignore ∧ db.Admits (memoryId content) := by
  rw [← owns_persist_iff h hok hdetect]
  exact ⟨fun hrem => hrem.owns, fun howns => ⟨howns, fun _ _ _ _ => howns⟩⟩

end Remember

def testRemember : RememberRun :=
  { sessionId := "s", toLowercase := List.map Char.toLower, order := .table, now := 1, reads := true, writes := true
    deletes := true }

/-- The owner's editor. -/
def oneEditor : List MemDb.Act := [.commits (.upsert (testRemember.explicitMemory "I use vim") 1)]

/-- Another editor is remembered in its place. -/
theorem remembered_iff_replaced : ∃ db, Steps.exec (MemDb.step testUnicode) .empty oneEditor = some db ∧
    testRemember.plan "I use emacs" db = .replace (memoryId "I use vim") ∧
    Remembered db (testRemember.persistExplicitMemory testUnicode "Remember I use emacs" db) "I use emacs" := by
  have hrun : (Steps.exec (MemDb.step testUnicode) .empty oneEditor).map (fun db =>
      (testRemember.plan "I use emacs" db, db.memory.map (·.id))) =
        some (.replace (memoryId "I use vim"), [memoryId "I use vim"]) := by
    decide +kernel
  obtain ⟨db, hdb, hrow⟩ := Option.map_eq_some_iff.1 hrun
  obtain ⟨hplan, hids⟩ := Prod.mk.inj hrow
  have hdetect : detectExplicitMemory testRemember.toLowercase "Remember I use emacs" = some "I use emacs" := by
    decide +kernel
  have hadmits : db.Admits (memoryId "I use emacs") := by
    intro r hr hid
    have hmem := List.mem_map_of_mem (f := MemoryRow.id) hr
    rw [hids, hid, List.mem_singleton] at hmem
    exact absurd hmem (by decide +kernel)
  refine ⟨db, hdb, hplan, ?_⟩
  exact (remembered_iff testRemember testUnicode "Remember I use emacs" "I use emacs" db (MemDb.sound_of_run hdb)
    ⟨rfl, rfl, rfl⟩ hdetect).2 (.inr ⟨by simp [hplan], hadmits⟩)

/-- What the user once said in passing, and a flush has written. -/
def mentionActs : List MemDb.Act :=
  (FlushRun.testFlush.candidates [(NewEntry.text "s" .user "I moved to Berlin" 4).toEntry 1]).map fun c =>
    .commits (.upsert (episodeMemory "s" c) 0)

/-- Ordered to be remembered, it stays an episode of the agent. -/
theorem remembered_fails_mentioned : ∃ db, Steps.exec (MemDb.step testUnicode) .empty mentionActs = some db ∧
    detectExplicitMemory testRemember.toLowercase "Remember I moved to Berlin" = some "I moved to Berlin" ∧
    testRemember.Faultless ∧
    ¬ Remembered db (testRemember.persistExplicitMemory testUnicode "Remember I moved to Berlin" db)
      "I moved to Berlin" := by
  have hrun : (Steps.exec (MemDb.step testUnicode) .empty mentionActs).map (fun db =>
      (testRemember.persistExplicitMemory testUnicode "Remember I moved to Berlin" db).memory.map fun r =>
        (r.tier, r.origin, r.text)) = some [(.episodic, .agent, "I moved to Berlin")] := by
    decide +kernel
  obtain ⟨db, hdb, hrows⟩ := Option.map_eq_some_iff.1 hrun
  refine ⟨db, hdb, by decide +kernel, ⟨rfl, rfl, rfl⟩, ?_⟩
  intro hrem
  obtain ⟨r, hr, -, htier, -⟩ := hrem.owns
  have hrow := List.mem_map_of_mem (f := fun r : MemoryRow => (r.tier, r.origin, r.text)) hr
  rw [hrows, List.mem_singleton] at hrow
  exact absurd (htier.symm.trans (Prod.mk.inj hrow).1) (by decide)

end OhMyClaw
