import OhMyClaw.Server.Explicit

/-!
# One preference for each topic

A new preference is to take the place of the one the owner had on the topic.  The write looks at
the earliest preference only, deletes that one and leaves all others, so a topic with two
preferences, which a failed deletion leaves behind, keeps an old one.

    mem_prefs_upsert, mem_prefs_delete    what a write and a deletion do to a topic
    converges_iff                         when one write leaves the topic with the new preference alone
-/

namespace OhMyClaw

namespace MemDb

/-- The preferences on a topic. -/
def prefs (db : MemDb) (key : String) : List MemoryRow :=
  db.memory.filter fun r => r.prefKey = some key ∧ r.tier = .curated

/-- The preferences on a topic besides the rows with the given ids. -/
def restOf (db : MemDb) (key : String) (ids : List String) : List MemoryRow :=
  (db.prefs key).filter fun r => r.id ∉ ids

/-- The topic has one preference, and it is the text. -/
def Sole (db : MemDb) (key text : String) : Prop := ∃ r, db.prefs key = [r] ∧ r.text = text

/-- The row a write of the id would go to, if there is one, is curated. -/
def CuratedAt (db : MemDb) (id : String) : Prop := ∀ r ∈ db.memory, r.id = id → r.tier = .curated

theorem mem_prefs {db : MemDb} {key : String} {r : MemoryRow} :
    r ∈ db.prefs key ↔ r ∈ db.memory ∧ r.prefKey = some key ∧ r.tier = .curated := by
  simp [prefs]

theorem mem_restOf {db : MemDb} {key : String} {ids : List String} {r : MemoryRow} :
    r ∈ db.restOf key ids ↔ r ∈ db.prefs key ∧ r.id ∉ ids := by
  simp [restOf]

section Topic

variable {U : Unicode} {db : MemDb} {key text : String}

theorem nodup_prefs (h : db.Sound U) (key : String) : (db.prefs key).Nodup :=
  (List.Nodup.of_map _ h.ids).filter _

theorem nodup_restOf (h : db.Sound U) (key : String) (ids : List String) : (db.restOf key ids).Nodup :=
  (nodup_prefs h key).filter _

/-- A list without repetition that has one member is that member. -/
theorem eq_singleton_iff {rows : List MemoryRow} (hrows : rows.Nodup) {r : MemoryRow} :
    rows = [r] ↔ ∀ x, x ∈ rows ↔ x = r := by
  constructor
  · rintro rfl x
    exact List.mem_singleton
  · intro h
    apply List.perm_singleton.1
    rw [List.perm_ext_iff_of_nodup hrows (List.nodup_singleton r)]
    intro x
    rw [h x, List.mem_singleton]

theorem prefs_perm (O : RowOrder) : (db.memoryByPrefKey O key).Perm (db.prefs key) :=
  (List.perm_insertionSort _ _).trans (O.perm _)

/-! ## A write and a deletion -/

/-- The topic after a write: the other preferences, and the row written if it is curated. -/
theorem mem_prefs_upsert {m : NewMemory} (hkey : m.prefKey = some key) (now : Int) {x : MemoryRow} :
    x ∈ (db.upsertMemory U m now).prefs key ↔ x ∈ db.prefs key ∧ x.id ≠ m.id ∨
      ((∃ r ∈ db.memory, r.id = m.id ∧ r.tier = .curated ∧ x = r.overwrite m) ∨
        db.find m.id = none ∧ m.tier = .curated ∧ x = .new m db.nextNo now) := by
  rw [mem_prefs, memory_upsertMemory, List.mem_append, List.mem_filterMap, mem_newRows, mem_prefs]
  constructor
  · rintro ⟨⟨r, hr, hrow⟩ | ⟨hnone, rfl⟩, hx, htier⟩
    · obtain rfl := Option.some.inj hrow
      by_cases hid : r.id = m.id
      · rw [if_pos hid] at htier ⊢
        exact Or.inr (Or.inl ⟨r, hr, hid, htier, rfl⟩)
      · rw [if_neg hid] at hx htier ⊢
        exact Or.inl ⟨⟨hr, hx, htier⟩, hid⟩
    · exact Or.inr (Or.inr ⟨hnone, htier, rfl⟩)
  · rintro (⟨⟨hx, hxkey, htier⟩, hid⟩ | ⟨r, hr, hid, htier, rfl⟩ | ⟨hnone, htier, rfl⟩)
    · exact ⟨Or.inl ⟨x, hx, by simp [Op.onRow, hid]⟩, hxkey, htier⟩
    · exact ⟨Or.inl ⟨r, hr, by simp [Op.onRow, hid]⟩, hkey, htier⟩
    · exact ⟨Or.inr ⟨hnone, rfl⟩, hkey, htier⟩

theorem mem_prefs_delete (h : db.Sound U) (id : String) {x : MemoryRow} :
    x ∈ (db.deleteMemory id).prefs key ↔ x ∈ db.prefs key ∧ x.id ≠ id := by
  rw [mem_prefs, memory_deleteMemory h, List.mem_filterMap, mem_prefs]
  constructor
  · rintro ⟨⟨r, hr, hrow⟩, hx⟩
    unfold Op.onRow at hrow
    simp only at hrow
    split_ifs at hrow with hid
    obtain rfl := Option.some.inj hrow
    exact ⟨⟨hr, hx⟩, hid⟩
  · rintro ⟨⟨hx, hxkey⟩, hid⟩
    exact ⟨⟨x, hx, by simp [Op.onRow, hid]⟩, hxkey⟩

/-- A write into a row that is curated, or is not there yet, adds one preference. -/
theorem mem_prefs_written (h : db.Sound U) {m : NewMemory} (hkey : m.prefKey = some key)
    (htier : m.tier = .curated) (hcurated : db.CuratedAt m.id) (now : Int) :
    ∃ w, w.id = m.id ∧ w.text = m.text ∧
      ∀ x, x ∈ (db.upsertMemory U m now).prefs key ↔ x ∈ db.prefs key ∧ x.id ≠ m.id ∨ x = w := by
  cases hfind : db.find m.id with
  | some r =>
    obtain ⟨hr, hid⟩ := find_eq_some hfind
    refine ⟨r.overwrite m, hid, rfl, fun x => ?_⟩
    rw [mem_prefs_upsert hkey]
    refine or_congr_right ⟨?_, ?_⟩
    · rintro (⟨r', hr', hid', -, rfl⟩ | ⟨hnone, -⟩)
      · rw [eq_of_id h.ids hr' hr (hid'.trans hid.symm)]
      · rw [hfind] at hnone
        simp at hnone
    · rintro rfl
      exact Or.inl ⟨r, hr, hid, hcurated r hr hid, rfl⟩
  | none =>
    refine ⟨.new m db.nextNo now, rfl, rfl, fun x => ?_⟩
    rw [mem_prefs_upsert hkey]
    refine or_congr_right ⟨?_, ?_⟩
    · rintro (⟨r', hr', hid', -, -⟩ | ⟨-, -, rfl⟩)
      · exact absurd hid' (find_eq_none hfind r' hr')
      · rfl
    · rintro rfl
      exact Or.inr ⟨hfind, htier, rfl⟩

/-- A write into a row that is not curated adds none. -/
theorem mem_prefs_unwritten (h : db.Sound U) {m : NewMemory} (hkey : m.prefKey = some key)
    (hcurated : ¬ db.CuratedAt m.id) (now : Int) {x : MemoryRow} :
    x ∈ (db.upsertMemory U m now).prefs key ↔ x ∈ db.prefs key ∧ x.id ≠ m.id := by
  unfold CuratedAt at hcurated
  push Not at hcurated
  obtain ⟨r, hr, hid, htier⟩ := hcurated
  rw [mem_prefs_upsert hkey]
  constructor
  · rintro (hx | ⟨r', hr', hid', htier', -⟩ | ⟨hnone, -⟩)
    · exact hx
    · rw [eq_of_id h.ids hr' hr (hid'.trans hid.symm)] at htier'
      exact absurd htier' htier
    · exact absurd hid (find_eq_none hnone r hr)
  · exact Or.inl

/-! ## How many are left -/

/-- One preference was added to those that are left. -/
theorem sole_add_iff {rest : List MemoryRow} (h : db.Sound U) {w : MemoryRow} (hw : w.text = text)
    (hnot : w ∉ rest) (hprefs : ∀ x, x ∈ db.prefs key ↔ x ∈ rest ∨ x = w) :
    db.Sole key text ↔ rest = [] := by
  constructor
  · rintro ⟨r, hr, -⟩
    have hmem := (eq_singleton_iff (nodup_prefs h key)).1 hr
    have hwr : w = r := (hmem w).1 ((hprefs w).2 (Or.inr rfl))
    apply List.eq_nil_iff_forall_not_mem.2
    intro x hx
    have hxr : x = r := (hmem x).1 ((hprefs x).2 (Or.inl hx))
    rw [hwr, ← hxr] at hnot
    exact hnot hx
  · rintro rfl
    refine ⟨w, (eq_singleton_iff (nodup_prefs h key)).2 fun x => ?_, hw⟩
    rw [hprefs x]
    simp

/-- None was added. -/
theorem sole_iff_of_same {rest : List MemoryRow} (h : db.Sound U) (hrest : rest.Nodup)
    (hprefs : ∀ x, x ∈ db.prefs key ↔ x ∈ rest) : db.Sole key text ↔ ∃ r, rest = [r] ∧ r.text = text := by
  unfold Sole
  simp only [eq_singleton_iff (nodup_prefs h key), eq_singleton_iff hrest, hprefs]

end Topic

end MemDb

/-! ## An explicit write on a topic -/

namespace RememberRun

variable (q : RememberRun)

/-- The earliest preference on the topic. -/
def earliest (db : MemDb) (key : String) : Option MemoryRow := (db.memoryByPrefKey q.order key).head?

/-- When one write leaves the topic with the text alone.  Without a preference on the topic the row with the
text's id has to be curated, if it is there.  An earliest preference with the text has to be the only one.
Another earliest one is deleted; then nothing else may be on the topic, or, if the row with the text's id is
not curated, one preference that has the text already. -/
def Converges (db : MemDb) (key content : String) : Prop :=
  match q.earliest db key with
  | none => db.CuratedAt (memoryId content)
  | some e =>
    (e.text = content ∧ db.prefs key = [e]) ∨
      (e.text ≠ content ∧
        ((db.CuratedAt (memoryId content) ∧ db.restOf key [e.id, memoryId content] = []) ∨
          (¬ db.CuratedAt (memoryId content) ∧
            ∃ r, db.restOf key [e.id, memoryId content] = [r] ∧ r.text = content)))

end RememberRun

section Converge

variable {q : RememberRun} {U : Unicode} {db : MemDb} {key content : String}

/-- The earliest preference on the topic decides. -/
theorem plan_eq (hreads : q.reads = true) (hkey : extractPrefKey q.toLowercase content = some key) :
    q.plan content db =
      match q.earliest db key with
      | none => .add
      | some e => if e.text = content then .ignore else .replace e.id := by
  unfold RememberRun.plan RememberRun.earliest
  simp only [hkey, hreads, if_true]
  cases db.memoryByPrefKey q.order key with
  | nil => rfl
  | cons e rows => simp [supersede]

theorem earliest_eq_none (h : q.earliest db key = none) : db.prefs key = [] := by
  unfold RememberRun.earliest at h
  have hperm : (db.memoryByPrefKey q.order key).Perm (db.prefs key) := MemDb.prefs_perm q.order
  rw [List.head?_eq_none_iff] at h
  rw [h] at hperm
  exact hperm.symm.eq_nil

theorem earliest_mem {e : MemoryRow} (h : q.earliest db key = some e) : e ∈ db.prefs key := by
  have hperm : (db.memoryByPrefKey q.order key).Perm (db.prefs key) := MemDb.prefs_perm q.order
  exact hperm.subset (List.mem_of_head? h)

/-- What an explicit write leaves on the topic, when it replaces the preference `old` or adds to none. -/
theorem sole_write_iff (h : db.Sound U) (hkey : extractPrefKey q.toLowercase content = some key)
    {after : MemDb} (hafter : after.Sound U) {ids : List String} (hid : memoryId content ∈ ids)
    (hprefs : ∀ x, x ∈ after.prefs key ↔
      x ∈ (db.upsertMemory U (q.explicitMemory content) q.now).prefs key ∧ (x.id ∈ ids → x.id = memoryId content)) :
    after.Sole key content ↔
      (db.CuratedAt (memoryId content) ∧ db.restOf key ids = []) ∨
        (¬ db.CuratedAt (memoryId content) ∧ ∃ r, db.restOf key ids = [r] ∧ r.text = content) := by
  have hnew : (q.explicitMemory content).prefKey = some key := hkey
  by_cases hcurated : db.CuratedAt (memoryId content)
  · obtain ⟨w, hwid, hwtext, hw⟩ := MemDb.mem_prefs_written h hnew rfl hcurated q.now
    have hwid : w.id = memoryId content := hwid
    have hnot : w ∉ db.restOf key ids := by
      intro hin
      exact (MemDb.mem_restOf.1 hin).2 (hwid ▸ hid)
    have hsole : after.Sole key content ↔ db.restOf key ids = [] := by
      refine MemDb.sole_add_iff hafter hwtext hnot fun x => ?_
      rw [hprefs x, hw x, MemDb.mem_restOf]
      constructor
      · rintro ⟨⟨hx, hne⟩ | rfl, himp⟩
        · exact Or.inl ⟨hx, fun hin => hne (himp hin)⟩
        · exact Or.inr rfl
      · rintro (⟨hx, hout⟩ | rfl)
        · exact ⟨Or.inl ⟨hx, fun heq => hout (heq ▸ hid)⟩, fun hin => absurd hin hout⟩
        · exact ⟨Or.inr rfl, fun _ => hwid⟩
    rw [hsole]
    simp [hcurated]
  · have hsole : after.Sole key content ↔ ∃ r, db.restOf key ids = [r] ∧ r.text = content := by
      refine MemDb.sole_iff_of_same hafter (MemDb.nodup_restOf h key ids) fun x => ?_
      rw [hprefs x, MemDb.mem_prefs_unwritten h hnew hcurated, MemDb.mem_restOf]
      constructor
      · rintro ⟨⟨hx, hne⟩, himp⟩
        exact ⟨hx, fun hin => hne (himp hin)⟩
      · rintro ⟨hx, hout⟩
        exact ⟨⟨hx, fun heq => hout (heq ▸ hid)⟩, fun hin => absurd hin hout⟩
    rw [hsole]
    simp [hcurated]

/-- A preference that is repeated is not written again. -/
theorem sole_of_ignored {e : MemoryRow} (he : e ∈ db.prefs key) (htext : e.text = content) :
    db.Sole key content ↔ db.prefs key = [e] := by
  constructor
  · rintro ⟨r, hr, -⟩
    rw [hr, List.mem_singleton] at he
    rw [hr, he]
  · exact fun hprefs => ⟨e, hprefs, htext⟩

theorem sole_persist_iff (h : db.Sound U) (hok : q.Faultless) {userMsg : String}
    (hdetect : detectExplicitMemory q.toLowercase userMsg = some content)
    (hkey : extractPrefKey q.toLowercase content = some key) :
    (q.persistExplicitMemory U userMsg db).Sole key content ↔ q.Converges db key content := by
  have hplan : q.plan content db = _ := plan_eq hok.reads hkey
  have hwritten := MemDb.sound_upsertMemory h (q.explicitMemory content) q.now
  unfold RememberRun.persistExplicitMemory RememberRun.Converges
  simp only [hdetect, hok.writes, hok.deletes, if_true]
  cases hearliest : q.earliest db key with
  | none =>
    have hrest : db.restOf key [memoryId content] = [] := by
      unfold MemDb.restOf
      rw [earliest_eq_none hearliest, List.filter_nil]
    rw [hearliest] at hplan
    simp only [hplan]
    rw [sole_write_iff h hkey hwritten (List.mem_singleton.2 rfl) fun x => by simp, hrest]
    simp
  | some e =>
    rw [hearliest] at hplan
    have he := earliest_mem hearliest
    by_cases htext : e.text = content
    · simp only [hplan, htext, if_true]
      rw [sole_of_ignored he htext]
      simp
    · simp only [hplan, htext, if_false]
      have hid : memoryId content ∈ [e.id, memoryId content] := by simp
      by_cases hsame : e.id = memoryId content
      · rw [if_pos hsame, sole_write_iff h hkey hwritten hid fun x => by simp [hsame]]
        simp [htext]
      · rw [if_neg hsame, sole_write_iff h hkey (MemDb.sound_deleteMemory hwritten e.id) hid ?_]
        · simp [htext]
        · intro x
          rw [MemDb.mem_prefs_delete hwritten]
          refine and_congr_right fun _ => ?_
          simp only [List.mem_cons, List.not_mem_nil, or_false]
          constructor
          · rintro hne (heq | heq)
            · exact absurd heq hne
            · exact heq
          · rintro himp heq
            exact hsame (heq.symm.trans (himp (Or.inl heq)))

/-- From any store an explicit write on a topic leaves the new preference alone on it exactly where
`Converges` says. -/
theorem converges_iff (q : RememberRun) (U : Unicode) (acts : List MemDb.Act) (db : MemDb)
    (userMsg content key : String) (hrun : Steps.exec (MemDb.step U) .empty acts = some db) (hok : q.Faultless)
    (hdetect : detectExplicitMemory q.toLowercase userMsg = some content)
    (hkey : extractPrefKey q.toLowercase content = some key) :
    (q.persistExplicitMemory U userMsg db).Sole key content ↔ q.Converges db key content :=
  sole_persist_iff (MemDb.sound_of_run hrun) hok hdetect hkey

end Converge

/-- The one preference on the editor gives way to the new one. -/
theorem converges_iff_replaced : ∃ db, Steps.exec (MemDb.step testUnicode) .empty oneEditor = some db ∧
    (db.prefs "编辑器").map (·.text) = ["I use vim"] ∧
    (testRemember.persistExplicitMemory testUnicode "Remember I use emacs" db).Sole "编辑器" "I use emacs" := by
  have hrun : (Steps.exec (MemDb.step testUnicode) .empty oneEditor).map (fun db =>
      ((db.prefs "编辑器").map (·.text), db.memory.map (·.id),
        (testRemember.earliest db "编辑器").map (fun e => (e.id, e.text)),
        db.restOf "编辑器" [memoryId "I use vim", memoryId "I use emacs"])) =
      some (["I use vim"], [memoryId "I use vim"], some (memoryId "I use vim", "I use vim"), []) := by
    decide +kernel
  obtain ⟨db, hdb, hrow⟩ := Option.map_eq_some_iff.1 hrun
  simp only [Prod.mk.injEq] at hrow
  obtain ⟨htexts, hids, hfirst, hrest⟩ := hrow
  obtain ⟨e, hearliest, hvim⟩ := Option.map_eq_some_iff.1 hfirst
  obtain ⟨hid, htext⟩ := Prod.mk.inj hvim
  have hdetect : detectExplicitMemory testRemember.toLowercase "Remember I use emacs" = some "I use emacs" := by
    decide +kernel
  have hkey : extractPrefKey testRemember.toLowercase "I use emacs" = some "编辑器" := by decide +kernel
  have hcurated : db.CuratedAt (memoryId "I use emacs") := by
    intro r hr hrid
    have hmem := List.mem_map_of_mem (f := MemoryRow.id) hr
    rw [hids, hrid, List.mem_singleton] at hmem
    exact absurd hmem (by decide +kernel)
  have hconverges : testRemember.Converges db "编辑器" "I use emacs" := by
    unfold RememberRun.Converges
    rw [hearliest]
    refine .inr ⟨?_, .inl ⟨hcurated, ?_⟩⟩
    · rw [htext]
      decide
    · rw [hid]
      exact hrest
  refine ⟨db, hdb, htexts, ?_⟩
  exact (converges_iff testRemember testUnicode oneEditor db "Remember I use emacs" "I use emacs" "编辑器" hdb
    ⟨rfl, rfl, rfl⟩ hdetect hkey).2 hconverges

/-- Two preferences on the editor: the older one should have been deleted when the newer was written, and
the deletion failed. -/
def twoEditors : List MemDb.Act :=
  oneEditor ++ [.commits (.upsert (testRemember.explicitMemory "I use emacs") 2), .fails (.delete (memoryId "I use vim"))]

/-- A third preference takes the place of the oldest, and the second stays. -/
theorem converges_fails_two : ∃ db, Steps.exec (MemDb.step testUnicode) .empty twoEditors = some db ∧
    detectExplicitMemory testRemember.toLowercase "Remember I use sublime" = some "I use sublime" ∧
    extractPrefKey testRemember.toLowercase "I use sublime" = some "编辑器" ∧ testRemember.Faultless ∧
    ¬ (testRemember.persistExplicitMemory testUnicode "Remember I use sublime" db).Sole "编辑器"
      "I use sublime" := by
  have hrun : (Steps.exec (MemDb.step testUnicode) .empty twoEditors).map (fun db =>
      ((testRemember.persistExplicitMemory testUnicode "Remember I use sublime" db).prefs "编辑器").map (·.text)) =
        some ["I use emacs", "I use sublime"] := by
    decide +kernel
  obtain ⟨db, hdb, htexts⟩ := Option.map_eq_some_iff.1 hrun
  refine ⟨db, hdb, by decide +kernel, by decide +kernel, ⟨rfl, rfl, rfl⟩, ?_⟩
  rintro ⟨r, hr, -⟩
  rw [hr] at htexts
  simp at htexts

end OhMyClaw
