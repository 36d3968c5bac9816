import OhMyClaw.Server.Consolidate

/-!
# What a dreaming scan remembers

A merge writes its text over the text of its target, so of several merges into one memory only the
last one's text stays; a create leaves the memory its own text, whatever text the item carries.

    remembers_iff      the curated texts after a scan
    scan_kept_iff      when every accepted text is among them
-/

namespace OhMyClaw

/-- The text is part of a curated memory. -/
def MemDb.Remembers (db : MemDb) (text : String) : Prop :=
  ∃ r ∈ db.memory, r.tier = .curated ∧ text.toList <:+: r.text.toList

namespace MemDb

variable {S T : String → Prop}

/-- A memory that is merged somewhere is gone, in whatever order the operations come. -/
theorem fate_of_merged {ops : List Op} (hmoves : ∀ op ∈ ops, op.Moves S T) {r : MemoryRow} (hr : ¬ T r.id)
    {targetId text hash : String} (h : Op.merge r.id targetId text hash ∈ ops) : fate ops r = none := by
  induction ops generalizing r with
  | nil => cases h
  | cons op ops ih =>
    have hop := hmoves op List.mem_cons_self
    have hmoves' : ∀ op ∈ ops, op.Moves S T := fun op' h' => hmoves op' (List.mem_cons_of_mem _ h')
    rw [fate]
    cases honRow : op.onRow r with
    | none => rfl
    | some r' =>
      have hid := (Op.onRow_some honRow).1
      have hrest : Op.merge r.id targetId text hash ∈ ops := by
        refine (List.mem_cons.1 h).resolve_left ?_
        rintro rfl
        have hne : r.id ≠ targetId := fun heq => hr (heq ▸ hop.2)
        simp [Op.onRow, hne] at honRow
      exact ih hmoves' (hid ▸ hr) (hid ▸ hrest)

/-- A memory that is merged nowhere, nor into, is at most promoted. -/
theorem fate_of_unmerged {ops : List Op} (hmoves : ∀ op ∈ ops, op.Moves S T) {r : MemoryRow} (hr : ¬ T r.id)
    (h : ∀ targetId text hash, Op.merge r.id targetId text hash ∉ ops) :
    fate ops r = some (if r.tier = .episodic ∧ .promote r.id ∈ ops then promoted r else r) := by
  induction ops generalizing r with
  | nil => simp [fate]
  | cons op ops ih =>
    have hop := hmoves op List.mem_cons_self
    have hmoves' : ∀ op ∈ ops, op.Moves S T := fun op' h' => hmoves op' (List.mem_cons_of_mem _ h')
    have hrest : ∀ targetId text hash, Op.merge r.id targetId text hash ∉ ops :=
      fun t text hash hmem => h t text hash (List.mem_cons_of_mem _ hmem)
    rw [fate]
    cases op with
    | upsert m now => exact absurd hop not_false
    | touch id usedAt => exact absurd hop not_false
    | delete id => exact absurd hop not_false
    | promote id =>
      by_cases hpromotes : r.id = id ∧ r.tier = .episodic
      · have hrow : (Op.promote id).onRow r = some (promoted r) := by simp [Op.onRow, hpromotes]
        rw [hrow, Option.bind_some, ih (r := promoted r) hmoves' hr hrest, hpromotes.1]
        simp [promoted, hpromotes.2]
      · have hrow : (Op.promote id).onRow r = some r := by simp [Op.onRow, hpromotes]
        rw [hrow, Option.bind_some, ih hmoves' hr hrest]
        have hsame : (r.tier = .episodic ∧ Op.promote r.id ∈ Op.promote id :: ops) ↔
            (r.tier = .episodic ∧ Op.promote r.id ∈ ops) := by
          refine and_congr_right fun htier => ?_
          have hne : ¬ r.id = id := fun heq => hpromotes ⟨heq, htier⟩
          simp [hne]
        simp only [hsame]
    | merge sourceId targetId text hash =>
      have htarget : r.id ≠ targetId := fun heq => hr (heq ▸ hop.2)
      have hsource : r.id ≠ sourceId := by
        rintro rfl
        exact h _ _ _ List.mem_cons_self
      have hrow : (Op.merge sourceId targetId text hash).onRow r = some r := by
        simp [Op.onRow, htarget, hsource]
      rw [hrow, Option.bind_some, ih hmoves' hr hrest]
      simp

end MemDb

namespace DreamRun

/-- The text of the last of the items that land in a memory. -/
def lastMerged (curated : List (String × String)) (items : List ConsolidateItem) (id : String) : Option String :=
  ((items.filter fun item => item.landing curated = some id).map (·.mergedText)).getLast?

/-- No read and no write of the scan fails. -/
structure Faultless (q : DreamRun) : Prop where
  candidates : q.readsCandidates = true
  curated : q.readsCurated = true
  writes : ∀ i, q.commits i = true

/-- The accepted texts are all remembered, and what is deleted has been one of the sources. -/
structure Kept (q : DreamRun) (db after : MemDb) : Prop where
  texts : ∀ item ∈ q.accepted db, after.Remembers item.mergedText
  deleted : ∀ r ∈ db.memory, (∀ r' ∈ after.memory, r'.id ≠ r.id) →
    ∃ item ∈ q.accepted db, item.sourceId = r.id ∧ after.Remembers item.mergedText

/-- A curated memory has the text in the end: in the last of the texts merged into it, or in its own if there
are none. -/
def InCurated (q : DreamRun) (db : MemDb) (text : String) : Prop :=
  ∃ r ∈ db.memory, r.tier = .curated ∧
    text.toList <:+: ((lastMerged (q.curated db) (q.accepted db) r.id).getD r.text).toList

/-- An episode has the text, that is created anew and merged nowhere. -/
def InCreated (q : DreamRun) (db : MemDb) (text : String) : Prop :=
  ∃ r ∈ q.admitted db, (∃ item ∈ q.accepted db, item.sourceId = r.id) ∧
    (∀ item ∈ q.accepted db, item.sourceId = r.id → item.landing (q.curated db) = none) ∧
    text.toList <:+: r.text.toList

/-- Each accepted text is one that stays. -/
def Carried (q : DreamRun) (db : MemDb) : Prop :=
  ∀ item ∈ q.accepted db, q.InCurated db item.mergedText ∨ q.InCreated db item.mergedText

variable {q : DreamRun} {U : Unicode} {db : MemDb}

theorem ops_of_faultless (hok : q.Faultless) :
    q.ops db = (q.accepted db).map (·.op (q.curated db)) := by
  have hwritten : q.written db = q.accepted db := by
    unfold written accepted
    simp only [hok.writes, Bool.and_true]
    have hmap := List.filter_map (f := Prod.fst) (l := (q.items db).zipIdx)
      (p := fun item : ConsolidateItem => (q.passed db).any (·.1 = item.sourceId))
    rw [List.zipIdx_map_fst] at hmap
    exact hmap.symm
  unfold ops
  rw [hwritten]

theorem op_of_landing {curated : List (String × String)} {item : ConsolidateItem} {t : String}
    (h : item.landing curated = some t) :
    item.op curated = .merge item.sourceId t item.mergedText (hashHex item.mergedText) := by
  unfold ConsolidateItem.op
  rw [h]

theorem op_of_no_landing {curated : List (String × String)} {item : ConsolidateItem}
    (h : item.landing curated = none) : item.op curated = .promote item.sourceId := by
  unfold ConsolidateItem.op
  rw [h]

/-- A memory that is not merged away has the last text merged into it. -/
theorem fate_of_target (curated : List (String × String)) {items : List ConsolidateItem} {r : MemoryRow}
    (h : ∀ item ∈ items, item.sourceId ≠ r.id) :
    ∃ r', MemDb.fate (items.map (·.op curated)) r = some r' ∧ r'.tier = r.tier ∧
      r'.text = (lastMerged curated items r.id).getD r.text := by
  induction items generalizing r with
  | nil => exact ⟨r, rfl, rfl, rfl⟩
  | cons item items ih =>
    have hsource : r.id ≠ item.sourceId := (h item List.mem_cons_self).symm
    have hrest : ∀ item ∈ items, item.sourceId ≠ r.id := fun i hi => h i (List.mem_cons_of_mem _ hi)
    rw [List.map_cons, MemDb.fate]
    by_cases hland : item.landing curated = some r.id
    · have hrow : (item.op curated).onRow r = some (MemDb.mergedInto item.mergedText (hashHex item.mergedText) r) := by
        rw [op_of_landing hland]
        simp [MemDb.Op.onRow]
      obtain ⟨r', hfate, htier, htext⟩ :=
        ih (r := MemDb.mergedInto item.mergedText (hashHex item.mergedText) r) hrest
      refine ⟨r', by rw [hrow, Option.bind_some, hfate], htier, ?_⟩
      rw [htext]
      unfold lastMerged
      rw [List.filter_cons, if_pos (decide_eq_true hland), List.map_cons, List.getLast?_cons]
      rfl
    · have hrow : (item.op curated).onRow r = some r := by
        cases hland' : item.landing curated with
        | none =>
          rw [op_of_no_landing hland']
          simp [MemDb.Op.onRow, hsource]
        | some t =>
          have hne : r.id ≠ t := fun heq => hland (hland'.trans (congrArg some heq.symm))
          rw [op_of_landing hland']
          simp [MemDb.Op.onRow, hsource, hne]
      obtain ⟨r', hfate, htier, htext⟩ := ih hrest
      refine ⟨r', by rw [hrow, Option.bind_some, hfate], htier, ?_⟩
      rw [htext]
      unfold lastMerged
      rw [List.filter_cons, if_neg (by simpa using hland)]

theorem source_of_accepted {item : ConsolidateItem} (h : item ∈ q.accepted db) : q.Source db item.sourceId :=
  mem_passed.1 (List.mem_filter.1 h).2

/-- What becomes of a memory that was not let through. -/
theorem fate_of_other (hok : q.Faultless) {r : MemoryRow} (hr : ¬ q.Source db r.id) :
    ∃ r', MemDb.fate (q.ops db) r = some r' ∧ r'.tier = r.tier ∧
      r'.text = (lastMerged (q.curated db) (q.accepted db) r.id).getD r.text := by
  rw [ops_of_faultless hok]
  exact fate_of_target _ fun item hitem heq => hr (heq ▸ source_of_accepted hitem)

/-- A merge among the writes is an accepted item with a landing. -/
theorem merge_mem_ops (hok : q.Faultless) {id : String} :
    (∃ t text hash, MemDb.Op.merge id t text hash ∈ q.ops db) ↔
      ∃ item ∈ q.accepted db, item.sourceId = id ∧ item.landing (q.curated db) ≠ none := by
  rw [ops_of_faultless hok]
  constructor
  · rintro ⟨t, text, hash, hmem⟩
    obtain ⟨item, hitem, heq⟩ := List.mem_map.1 hmem
    cases hland : item.landing (q.curated db) with
    | none =>
      rw [op_of_no_landing hland] at heq
      cases heq
    | some t' =>
      rw [op_of_landing hland] at heq
      exact ⟨item, hitem, (MemDb.Op.merge.inj heq).1, by simp [hland]⟩
  · rintro ⟨item, hitem, rfl, hland⟩
    obtain ⟨t, ht⟩ := Option.ne_none_iff_exists'.1 hland
    exact ⟨t, _, _, List.mem_map.2 ⟨item, hitem, op_of_landing ht⟩⟩

theorem promote_mem_ops (hok : q.Faultless) {id : String} :
    MemDb.Op.promote id ∈ q.ops db ↔
      ∃ item ∈ q.accepted db, item.sourceId = id ∧ item.landing (q.curated db) = none := by
  rw [ops_of_faultless hok]
  constructor
  · intro hmem
    obtain ⟨item, hitem, heq⟩ := List.mem_map.1 hmem
    cases hland : item.landing (q.curated db) with
    | none =>
      rw [op_of_no_landing hland] at heq
      exact ⟨item, hitem, MemDb.Op.promote.inj heq, hland⟩
    | some t =>
      rw [op_of_landing hland] at heq
      cases heq
  · rintro ⟨item, hitem, rfl, hland⟩
    exact List.mem_map.2 ⟨item, hitem, op_of_no_landing hland⟩

theorem not_target_of_admitted (h : db.Sound U) {r : MemoryRow} (hr : r ∈ q.admitted db) : ¬ q.Target db r.id :=
  fun htarget => target_not_source h.ids htarget ⟨r, hr, rfl⟩

/-- An episode with an item that lands somewhere is gone. -/
theorem fate_of_landing (h : db.Sound U) (hok : q.Faultless) {r : MemoryRow} (hr : r ∈ q.admitted db)
    (hland : ∃ item ∈ q.accepted db, item.sourceId = r.id ∧ item.landing (q.curated db) ≠ none) :
    MemDb.fate (q.ops db) r = none := by
  obtain ⟨t, text, hash, hmem⟩ := (merge_mem_ops hok).2 hland
  exact MemDb.fate_of_merged (fun _ => moves) (not_target_of_admitted h hr) hmem

/-- Without one it keeps its text, and becomes curated if there is an item at all. -/
theorem fate_of_created (h : db.Sound U) (hok : q.Faultless) {r : MemoryRow} (hr : r ∈ q.admitted db)
    (hnone : ∀ item ∈ q.accepted db, item.sourceId = r.id → item.landing (q.curated db) = none) :
    ∃ r', MemDb.fate (q.ops db) r = some r' ∧ r'.text = r.text ∧
      (r'.tier = .curated ↔ ∃ item ∈ q.accepted db, item.sourceId = r.id) := by
  have hepisodic : r.tier = .episodic := (gated_of_admitted h.ids hr).2.tier
  have hmerged : ∀ t text hash, MemDb.Op.merge r.id t text hash ∉ q.ops db := by
    intro t text hash hmem
    obtain ⟨item, hitem, hid, hland⟩ := (merge_mem_ops hok).1 ⟨t, text, hash, hmem⟩
    exact hland (hnone item hitem hid)
  have hfate := MemDb.fate_of_unmerged (fun _ => moves) (not_target_of_admitted h hr) hmerged
  by_cases hpromote : MemDb.Op.promote r.id ∈ q.ops db
  · rw [if_pos ⟨hepisodic, hpromote⟩] at hfate
    obtain ⟨item, hitem, hid, -⟩ := (promote_mem_ops hok).1 hpromote
    exact ⟨_, hfate, rfl, iff_of_true rfl ⟨item, hitem, hid⟩⟩
  · rw [if_neg fun hand => hpromote hand.2] at hfate
    refine ⟨r, hfate, rfl, iff_of_false (by simp [hepisodic]) ?_⟩
    rintro ⟨item, hitem, hid⟩
    exact hpromote ((promote_mem_ops hok).2 ⟨item, hitem, hid, hnone item hitem hid⟩)

/-- The texts that are part of a curated memory after a scan. -/
theorem remembers_iff (h : db.Sound U) (hok : q.Faultless) (text : String) :
    (q.scanWith U db).1.Remembers text ↔ q.InCurated db text ∨ q.InCreated db text := by
  unfold MemDb.Remembers
  rw [memory_scanWith h]
  constructor
  · rintro ⟨r', hr', htier, htext⟩
    obtain ⟨r, hr, hfate⟩ := List.mem_filterMap.1 hr'
    by_cases hadmitted : r ∈ q.admitted db
    · by_cases hland : ∃ item ∈ q.accepted db, item.sourceId = r.id ∧ item.landing (q.curated db) ≠ none
      · rw [fate_of_landing h hok hadmitted hland] at hfate
        cases hfate
      · push Not at hland
        obtain ⟨r'', hfate', htext', hcurated⟩ := fate_of_created h hok hadmitted hland
        obtain rfl := Option.some.inj (hfate.symm.trans hfate')
        exact .inr ⟨r, hadmitted, hcurated.1 htier, hland, htext' ▸ htext⟩
    · obtain ⟨r'', hfate', htier', htext'⟩ := fate_of_other hok (not_source h.ids hr hadmitted)
      obtain rfl := Option.some.inj (hfate.symm.trans hfate')
      exact .inl ⟨r, hr, htier'.symm.trans htier, htext' ▸ htext⟩
  · rintro (⟨r, hr, htier, htext⟩ | ⟨r, hadmitted, hitem, hnone, htext⟩)
    · have hadmitted : r ∉ q.admitted db :=
        fun ha => absurd (htier.symm.trans (gated_of_admitted h.ids ha).2.tier) (by decide)
      obtain ⟨r', hfate, htier', htext'⟩ := fate_of_other hok (not_source h.ids hr hadmitted)
      exact ⟨r', List.mem_filterMap.2 ⟨r, hr, hfate⟩, htier'.trans htier, htext' ▸ htext⟩
    · obtain ⟨r', hfate, htext', hcurated⟩ := fate_of_created h hok hadmitted hnone
      have hr := (gated_of_admitted h.ids hadmitted).1
      exact ⟨r', List.mem_filterMap.2 ⟨r, hr, hfate⟩, hcurated.2 hitem, htext' ▸ htext⟩

/-- What is gone after a scan has been merged somewhere. -/
theorem item_of_deleted (h : db.Sound U) (hok : q.Faultless) {r : MemoryRow} (hr : r ∈ db.memory)
    (hgone : ∀ r' ∈ (q.scanWith U db).1.memory, r'.id ≠ r.id) : ∃ item ∈ q.accepted db, item.sourceId = r.id := by
  by_cases hsource : ∃ item ∈ q.accepted db, item.sourceId = r.id
  · exact hsource
  · push Not at hsource
    have hfate := fate_of_target (q.curated db) hsource
    rw [← ops_of_faultless hok] at hfate
    obtain ⟨r', hfate, -, -⟩ := hfate
    exact absurd (MemDb.fate_some hfate).1 (hgone r' (memory_scanWith h ▸ List.mem_filterMap.2 ⟨r, hr, hfate⟩))

/-- A scan whose reads and writes all succeed forgets nothing exactly if each accepted text is one that stays:
the last of those merged into a memory, or the own text of an episode that is only created. -/
theorem scan_kept_iff (q : DreamRun) (U : Unicode) (db : MemDb) (h : db.Sound U) (hok : q.Faultless) :
    q.Kept db (q.scanWith U db).1 ↔ q.Carried db := by
  constructor
  · intro hkept item hitem
    exact (remembers_iff h hok _).1 (hkept.texts item hitem)
  · intro hcarried
    have htexts : ∀ item ∈ q.accepted db, (q.scanWith U db).1.Remembers item.mergedText :=
      fun item hitem => (remembers_iff h hok _).2 (hcarried item hitem)
    refine ⟨htexts, ?_⟩
    intro r hr hgone
    obtain ⟨item, hitem, hid⟩ := item_of_deleted h hok hr hgone
    exact ⟨item, hitem, hid, htexts item hitem⟩

/-- A curated memory and two episodes, each used twice. -/
def twoEpisodesActs : List MemDb.Act :=
  [.commits (.upsert (testMemory "c" .curated "likes tea") 0), .commits (.upsert (testMemory "e" .episodic "has a cat") 0),
    .commits (.upsert (testMemory "f" .episodic "has a dog") 0), .commits (.touch "e" 1), .commits (.touch "e" 2),
    .commits (.touch "f" 1), .commits (.touch "f" 2)]

theorem scan_kept_iff_untrusted : ∃ db, Steps.exec (MemDb.step testUnicode) .empty untrustedActs = some db ∧
    (untrustedAnswer.Kept db (untrustedAnswer.scanWith testUnicode db).1 ↔ untrustedAnswer.Carried db) := by
  obtain ⟨db, hdb⟩ := Option.isSome_iff_exists.1
    (show (Steps.exec (MemDb.step testUnicode) .empty untrustedActs).isSome = true by decide)
  exact ⟨db, hdb, scan_kept_iff untrustedAnswer testUnicode db (MemDb.sound_of_run hdb) ⟨rfl, rfl, fun _ => rfl⟩⟩

/-- Both episodes are merged into the same memory, each into the text it had when it was shown. -/
def sameTargetAnswer : DreamRun :=
  answering
    "\"actions\":[\x7b\"source_id\":\"e\",\"action\":\"refine\",\"target_id\":\"c\",\"merged_text\":\"likes tea; has a cat\"\x7d,\x7b\"source_id\":\"f\",\"action\":\"refine\",\"target_id\":\"c\",\"merged_text\":\"likes tea; has a dog\"\x7d]"
    [{ sourceId := "e", action := .refine, targetId := some "c", mergedText := "likes tea; has a cat" },
      { sourceId := "f", action := .refine, targetId := some "c", mergedText := "likes tea; has a dog" }]

/-- The cat is forgotten. -/
theorem scan_kept_fails_same_target : ∃ db, Steps.exec (MemDb.step testUnicode) .empty twoEpisodesActs = some db ∧
    sameTargetAnswer.Faultless ∧ ¬ sameTargetAnswer.Kept db (sameTargetAnswer.scanWith testUnicode db).1 := by
  have hrun : (Steps.exec (MemDb.step testUnicode) .empty twoEpisodesActs).map (fun db =>
      ((sameTargetAnswer.accepted db).map (·.mergedText),
        (sameTargetAnswer.scanWith testUnicode db).1.memory.map (·.text))) =
      some (["likes tea; has a cat", "likes tea; has a dog"], ["likes tea; has a dog"]) := by
    simp only [scanWith, accepted, sameTargetAnswer, items_answering]
    decide +kernel
  obtain ⟨db, hdb, hresult⟩ := Option.map_eq_some_iff.1 hrun
  obtain ⟨haccepted, htexts⟩ := Prod.mk.inj hresult
  refine ⟨db, hdb, ⟨rfl, rfl, fun _ => rfl⟩, ?_⟩
  intro hkept
  obtain ⟨item, hitem, hcat⟩ := List.mem_map.1 (haccepted ▸ List.mem_cons_self :
    "likes tea; has a cat" ∈ (sameTargetAnswer.accepted db).map (·.mergedText))
  obtain ⟨r, hr, -, htext⟩ := hkept.texts item hitem
  have hdog : r.text = "likes tea; has a dog" := by
    have := List.mem_map_of_mem (f := MemoryRow.text) hr
    rwa [htexts, List.mem_singleton] at this
  rw [hcat, hdog] at htext
  exact absurd htext (by decide +kernel)

end DreamRun

end OhMyClaw
