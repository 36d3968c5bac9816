import OhMyClaw.Lib.Standing
import OhMyClaw.Server.Explicit

/-!
# What a preference is about

The topic of a preference is the first one of which a word occurs anywhere in the text, also inside another
word; an older preference on that topic is then deleted.

    prefKey_of_deleted    only a preference on the topic of the new one is deleted
    mem_of_persist        what is in the store afterwards
    prefSafe_iff          when the topic found is one the text names
-/

namespace OhMyClaw

open Standing (StandsIn)

section

variable (letter : Char → Bool) (lower : List Char)

/-- A word of the topic occurs in the text, perhaps inside another word. -/
def TopicOccurs (topic : String × List String) : Prop := ∃ t ∈ topic.2, t.toList <:+: lower

/-- A word of the topic stands in the text on its own. -/
def TopicStands (topic : String × List String) : Prop := ∃ t ∈ topic.2, StandsIn letter t.toList lower

instance (topic : String × List String) : Decidable (TopicStands letter lower topic) :=
  inferInstanceAs (Decidable (∃ t ∈ topic.2, StandsIn letter t.toList lower))

/-- The text names the topic with this key. -/
def NamesTopic (key : String) : Prop := ∃ topic ∈ prefTopics, topic.1 = key ∧ TopicStands letter lower topic

instance (key : String) : Decidable (NamesTopic letter lower key) :=
  inferInstanceAs (Decidable (∃ topic ∈ prefTopics, topic.1 = key ∧ TopicStands letter lower topic))

end

/-- Every preference in the store is on a topic its text names. -/
def MemDb.PrefsNamed (letter : Char → Bool) (toLowercase : List Char → List Char) (db : MemDb) : Prop :=
  ∀ r ∈ db.memory, ∀ key, r.prefKey = some key → NamesTopic letter (toLowercase r.text.toList) key

/-- The topic of the text is one it names.  In a store whose preferences name their topics, the text keeps that so,
and what is deleted for it is a preference on a topic both name. -/
structure PrefSafe (letter : Char → Bool) (q : RememberRun) (content : String) : Prop where
  named : ∀ key, extractPrefKey q.toLowercase content = some key →
    NamesTopic letter (q.toLowercase content.toList) key
  kept : ∀ (U : Unicode) (userMsg : String) (db : MemDb), db.Sound U → db.PrefsNamed letter q.toLowercase →
    detectExplicitMemory q.toLowercase userMsg = some content →
      (q.persistExplicitMemory U userMsg db).PrefsNamed letter q.toLowercase
  deleted : ∀ (U : Unicode) (userMsg : String) (db : MemDb), db.Sound U → db.PrefsNamed letter q.toLowercase →
    detectExplicitMemory q.toLowercase userMsg = some content → ∀ r ∈ db.memory,
      (∀ r' ∈ (q.persistExplicitMemory U userMsg db).memory, r'.id ≠ r.id) →
        ∃ key, r.prefKey = some key ∧ NamesTopic letter (q.toLowercase r.text.toList) key ∧
          NamesTopic letter (q.toLowercase content.toList) key

section Topics

variable {letter : Char → Bool} {q : RememberRun} {U : Unicode} {db : MemDb} {content : String} {r : MemoryRow}

/-- What a plan replaces is a preference on the topic of the text. -/
theorem prefKey_of_replace {oldId : String} (hids : (db.memory.map (·.id)).Nodup)
    (h : q.plan content db = .replace oldId) (hr : r ∈ db.memory) (hid : r.id = oldId) :
    ∃ key, extractPrefKey q.toLowercase content = some key ∧ r.prefKey = some key := by
  obtain ⟨key, hkey, r', hr', hid', hpref, -⟩ := exists_of_replace h
  obtain rfl := MemDb.eq_of_id hids hr hr' (hid.trans hid'.symm)
  exact ⟨key, hkey, hpref⟩

/-- A write keeps the ids. -/
theorem exists_id_upsert (m : NewMemory) (now : Int) (hr : r ∈ db.memory) :
    ∃ r' ∈ (db.upsertMemory U m now).memory, r'.id = r.id := by
  rw [MemDb.memory_upsertMemory]
  refine ⟨_, List.mem_append_left _ (List.mem_filterMap.2 ⟨r, hr, rfl⟩), ?_⟩
  by_cases hid : r.id = m.id
  · rw [if_pos hid]
    rfl
  · rw [if_neg hid]

/-- A deletion keeps the other ids. -/
theorem exists_id_delete (h : db.Sound U) {id : String} (hr : r ∈ db.memory) (hid : r.id ≠ id) :
    ∃ r' ∈ (db.deleteMemory id).memory, r'.id = r.id := by
  rw [MemDb.memory_deleteMemory h]
  exact ⟨r, List.mem_filterMap.2 ⟨r, hr, by simp [MemDb.Op.onRow, hid]⟩, rfl⟩

/-- Only a preference on the topic of the new one is deleted. -/
theorem prefKey_of_deleted (h : db.Sound U) {userMsg : String}
    (hdetect : detectExplicitMemory q.toLowercase userMsg = some content) (hr : r ∈ db.memory)
    (hgone : ∀ r' ∈ (q.persistExplicitMemory U userMsg db).memory, r'.id ≠ r.id) :
    ∃ key, extractPrefKey q.toLowercase content = some key ∧ r.prefKey = some key := by
  unfold RememberRun.persistExplicitMemory at hgone
  simp only [hdetect] at hgone
  cases hplan : q.plan content db with
  | ignore =>
    simp only [hplan] at hgone
    exact absurd rfl (hgone r hr)
  | add =>
    simp only [hplan] at hgone
    split at hgone
    · obtain ⟨r', hr', hid⟩ := exists_id_upsert (U := U) (q.explicitMemory content) q.now hr
      exact absurd hid (hgone r' hr')
    · exact absurd rfl (hgone r hr)
  | replace oldId =>
    by_cases hid : r.id = oldId
    · exact prefKey_of_replace h.ids hplan hr hid
    · simp only [hplan] at hgone
      obtain ⟨w, hw, hwid⟩ := exists_id_upsert (U := U) (q.explicitMemory content) q.now hr
      split at hgone
      · split at hgone
        · exact absurd hwid (hgone w hw)
        · split at hgone
          · have hsound := MemDb.sound_upsertMemory h (q.explicitMemory content) q.now
            obtain ⟨r', hr', hid'⟩ := exists_id_delete hsound hw (hwid.trans_ne hid)
            exact absurd (hid'.trans hwid) (hgone r' hr')
          · exact absurd hwid (hgone w hw)
      · exact absurd rfl (hgone r hr)

theorem mem_of_upsert {m : NewMemory} {now : Int} (hr : r ∈ (db.upsertMemory U m now).memory) :
    r ∈ db.memory ∨ r.text = m.text ∧ r.prefKey = m.prefKey := by
  rw [MemDb.memory_upsertMemory, List.mem_append, List.mem_filterMap] at hr
  rcases hr with ⟨old, hold, hrow⟩ | hnew
  · obtain rfl := Option.some.inj hrow
    by_cases hid : old.id = m.id
    · rw [if_pos hid]
      exact .inr ⟨rfl, rfl⟩
    · rw [if_neg hid]
      exact .inl hold
  · obtain ⟨-, rfl⟩ := MemDb.mem_newRows.1 hnew
    exact .inr ⟨rfl, rfl⟩

theorem mem_of_delete (h : db.Sound U) {id : String} (hr : r ∈ (db.deleteMemory id).memory) : r ∈ db.memory := by
  rw [MemDb.memory_deleteMemory h, List.mem_filterMap] at hr
  obtain ⟨old, hold, hrow⟩ := hr
  unfold MemDb.Op.onRow at hrow
  simp only at hrow
  split_ifs at hrow
  obtain rfl := Option.some.inj hrow
  exact hold

/-- What is in the store afterwards was there before, or is the memory of the text. -/
theorem mem_of_persist (h : db.Sound U) {userMsg : String}
    (hdetect : detectExplicitMemory q.toLowercase userMsg = some content)
    (hr : r ∈ (q.persistExplicitMemory U userMsg db).memory) :
    r ∈ db.memory ∨ r.text = content ∧ r.prefKey = extractPrefKey q.toLowercase content := by
  have hwritten (hr : r ∈ (db.upsertMemory U (q.explicitMemory content) q.now).memory) :
      r ∈ db.memory ∨ r.text = content ∧ r.prefKey = extractPrefKey q.toLowercase content := mem_of_upsert hr
  unfold RememberRun.persistExplicitMemory at hr
  simp only [hdetect] at hr
  cases hplan : q.plan content db with
  | ignore =>
    simp only [hplan] at hr
    exact .inl hr
  | add =>
    simp only [hplan] at hr
    split at hr
    · exact hwritten hr
    · exact .inl hr
  | replace oldId =>
    simp only [hplan] at hr
    split at hr
    · split at hr
      · exact hwritten hr
      · split at hr
        · exact hwritten (mem_of_delete (MemDb.sound_upsertMemory h (q.explicitMemory content) q.now) hr)
        · exact hwritten hr
    · exact .inl hr

theorem TopicStands.occurs {lower : List Char} {topic : String × List String} (h : TopicStands letter lower topic) :
    (topic.2.any fun t => RustStr.contains lower t.toList) = true := by
  obtain ⟨t, ht, hstands⟩ := h
  exact List.any_eq_true.2 ⟨t, ht, RustStr.contains_iff.2 hstands.infix⟩

theorem topicOccurs_iff {lower : List Char} {topic : String × List String} :
    (topic.2.any fun t => RustStr.contains lower t.toList) = true ↔ TopicOccurs lower topic := by
  simp only [List.any_eq_true, RustStr.contains_iff]
  exact Iff.rfl

/-- The key that is found is named exactly where the topic that is found stands in the text. -/
theorem named_iff (letter : Char → Bool) (toLowercase : List Char → List Char) (text : String) :
    (∀ key, extractPrefKey toLowercase text = some key → NamesTopic letter (toLowercase text.toList) key) ↔
      ∀ topic, (prefTopics.find? fun topic => topic.2.any fun t => RustStr.contains (toLowercase text.toList) t.toList) =
        some topic → TopicStands letter (toLowercase text.toList) topic := by
  have hkeys : (prefTopics.map (·.1)).Nodup := by decide
  constructor
  · intro h topic hfind
    obtain ⟨topic', htopic', hkey, hstands⟩ := h topic.1 (by rw [extractPrefKey, hfind, Option.map_some])
    rwa [← List.inj_on_of_nodup_map hkeys htopic' (List.mem_of_find?_eq_some hfind) hkey]
  · intro h key hkey
    obtain ⟨topic, hfind, rfl⟩ := Option.map_eq_some_iff.1 hkey
    exact ⟨topic, List.mem_of_find?_eq_some hfind, rfl, h topic hfind⟩

/-- The topic found is one the text names, and nothing else is deleted, exactly where each topic that occurs
only inside other words comes behind a topic the text names. -/
theorem prefSafe_iff (letter : Char → Bool) (q : RememberRun) (content : String) :
    PrefSafe letter q content ↔
      ∀ pre topic post, prefTopics = pre ++ topic :: post → TopicOccurs (q.toLowercase content.toList) topic →
        ¬ TopicStands letter (q.toLowercase content.toList) topic →
          ∃ earlier ∈ pre, TopicStands letter (q.toLowercase content.toList) earlier := by
  simp only [← topicOccurs_iff]
  rw [← Standing.find?_forall_iff fun topic _ h => TopicStands.occurs h, ← named_iff]
  constructor
  · exact fun h => h.named
  · intro h
    refine ⟨h, fun U userMsg db hsound hnamed hdetect r hr key hkey => ?_,
      fun U userMsg db hsound hnamed hdetect r hr hgone => ?_⟩
    · rcases mem_of_persist hsound hdetect hr with hold | ⟨htext, hpref⟩
      · exact hnamed r hold key hkey
      · rw [htext]
        exact h key (hpref.symm.trans hkey)
    · obtain ⟨key, hkey, hpref⟩ := prefKey_of_deleted hsound hdetect hr hgone
      exact ⟨key, hpref, hnamed r hr key hpref, h key hkey⟩

/-- The word for an editor inside another word. -/
theorem prefSafe_fails : ¬ ∀ (q : RememberRun) (content : String), PrefSafe Char.isAlpha q content := by
  intro h
  have hnamed := (h testRemember "I provide support").named "编辑器" (by decide +kernel)
  revert hnamed
  decide +kernel

example : (testRemember.persistExplicitMemory testUnicode "Remember I provide support"
    (testRemember.persistExplicitMemory testUnicode "Remember I use VS Code" .empty)).memory.map (·.text) =
      ["I provide support"] := by
  decide +kernel

end Topics

end OhMyClaw
