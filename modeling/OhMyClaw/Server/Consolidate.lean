import OhMyClaw.Core.Dreaming
import OhMyClaw.Server.Dreaming
import OhMyClaw.Store.MemoryRows

/-!
# A dreaming scan

The scan shows the model the memories the gates let through and the curated ones, and carries out
what the model answers, item by item.  An item acts on a memory that was let through and on no
other; what it may be merged into is one of the curated memories that were shown.

    scan_confined      what a scan touches, whatever the answer is

The audit entries it writes are left out.
-/

namespace OhMyClaw

/-- The most candidates of one scan. -/
def scanLimit : Int := 64

def toCandidate (nowSecs : Int) (r : MemoryRow) : DreamCandidate :=
  { id := r.id, tier := r.tier, origin := r.origin, importance := r.importance
    useCount := (max r.useCount 0).toNat % 2 ^ 32
    ageSecs := max (nowSecs - r.createdAt.tdiv 1000) 0 }

/-- The memory an item is to be merged into, if it was shown; a create has none. -/
def ConsolidateItem.landing (curated : List (String × String)) (item : ConsolidateItem) : Option String :=
  match item.action with
  | .create => none
  | _ => item.targetId.filter fun t => curated.any (·.1 = t)

/-- The write an item asks for; without a place to land it is a create. -/
def ConsolidateItem.op (curated : List (String × String)) (item : ConsolidateItem) : MemDb.Op :=
  match item.landing curated with
  | some t => .merge item.sourceId t item.mergedText (hashHex item.mergedText)
  | none => .promote item.sourceId

/-- All that a scan depends on besides the store.  Without a provider no model is asked; `commits` says
which of the writes go through. -/
structure DreamRun where
  nowSecs : Int
  cfg : DreamCfg
  order : RowOrder
  fl : ℚ → ℚ
  fromStr : List Char → Option (List ConsolidateItem)
  provider : Option (String → ProviderTurn)
  readsCandidates : Bool
  readsCurated : Bool
  commits : Nat → Bool

namespace DreamRun

variable (q : DreamRun)

def rows (db : MemDb) : List MemoryRow :=
  if q.readsCandidates then db.dreamCandidates q.order scanLimit else []

def consolidations (db : MemDb) : List Consolidation :=
  dreamingGate q.fl ((q.rows db).map (toCandidate q.nowSecs)) q.cfg

/-- The memories the gates let through. -/
def admitted (db : MemDb) : List MemoryRow :=
  (q.consolidations db).filterMap fun c => (q.rows db).find? (·.id = c.id)

def passed (db : MemDb) : List (String × String) := (q.admitted db).map fun r => (r.id, r.text)

def curated (db : MemDb) : List (String × String) := if q.readsCurated then db.curatedList else []

/-- What is done if there is no model, or no answer that can be read. -/
def allCreate (passed : List (String × String)) : List ConsolidateItem :=
  passed.map fun p => { sourceId := p.1, action := .create, targetId := none, mergedText := p.2 }

def items (db : MemDb) : List ConsolidateItem :=
  match q.provider with
  | some ask =>
    let prompt := buildConsolidateDecisionPrompt (q.curated db) (q.passed db)
    ((runModelWithSystem (ask prompt)).bind (parseConsolidations q.fromStr)).getD (allCreate (q.passed db))
  | none => allCreate (q.passed db)

/-- One round of the loop: an item whose source was not let through is skipped. -/
def applyItem (U : Unicode) (passed curated : List (String × String)) (st : MemDb × List String)
    (item : ConsolidateItem × Nat) : MemDb × List String :=
  if passed.any (·.1 = item.1.sourceId) then
    if q.commits item.2 then (st.1.apply U (item.1.op curated), st.2 ++ [item.1.mergedText]) else st
  else st

/-- The store after the scan, and the texts handed on to the rewriting of `MEMORY.md`. -/
def scanWith (U : Unicode) (db : MemDb) : MemDb × List String :=
  if (q.consolidations db).isEmpty then (db, [])
  else (q.items db).zipIdx.foldl (q.applyItem U (q.passed db) (q.curated db)) (db, [])

/-- The answer is accepted in these items. -/
def accepted (db : MemDb) : List ConsolidateItem :=
  (q.items db).filter fun item => (q.passed db).any (·.1 = item.sourceId)

/-! ## The writes of a scan -/

/-- The items that are accepted and written. -/
def written (db : MemDb) : List ConsolidateItem :=
  ((q.items db).zipIdx.filter fun item => (q.passed db).any (·.1 = item.1.sourceId) && q.commits item.2).map (·.1)

def ops (db : MemDb) : List MemDb.Op := (q.written db).map (·.op (q.curated db))

variable {q} {U : Unicode} {db : MemDb}

theorem foldl_applyItem (passed curated : List (String × String)) (items : List (ConsolidateItem × Nat)) (st : MemDb × List String) :
    (items.foldl (q.applyItem U passed curated) st).1 =
      ((items.filter fun item => passed.any (·.1 = item.1.sourceId) && q.commits item.2).map fun item =>
        item.1.op curated).foldl (MemDb.apply U) st.1 := by
  induction items generalizing st with
  | nil => rfl
  | cons item items ih =>
    rw [List.foldl_cons, ih]
    unfold applyItem
    by_cases hpassed : passed.any (·.1 = item.1.sourceId) = true
    · by_cases hcommits : q.commits item.2 = true
      · simp [hpassed, hcommits]
      · simp [hpassed, hcommits]
    · simp [hpassed]

theorem mem_rows {r : MemoryRow} (h : r ∈ q.rows db) : r ∈ db.memory ∧ r.tier = .episodic := by
  unfold rows at h
  split at h
  · exact MemDb.mem_of_dreamCandidates h
  · simp at h

theorem mem_curated {p : String × String} (h : p ∈ q.curated db) :
    ∃ r ∈ db.memory, r.tier = .curated ∧ (r.id, r.text) = p := by
  unfold curated at h
  split at h
  · exact MemDb.mem_curatedList.1 h
  · simp at h

/-- Each consolidation is of one of the rows read. -/
theorem mem_admitted {r : MemoryRow} (hids : (db.memory.map (·.id)).Nodup) :
    r ∈ q.admitted db ↔ r ∈ q.rows db ∧ ∃ c ∈ q.consolidations db, c.id = r.id := by
  unfold admitted
  rw [List.mem_filterMap]
  constructor
  · rintro ⟨c, hc, hfind⟩
    have hid : r.id = c.id := by simpa using List.find?_some hfind
    exact ⟨List.mem_of_find?_eq_some hfind, c, hc, hid.symm⟩
  · rintro ⟨hr, c, hc, hid⟩
    refine ⟨c, hc, ?_⟩
    cases hfind : (q.rows db).find? (·.id = c.id) with
    | none =>
      simp [List.find?_eq_none] at hfind
      exact absurd hid.symm (hfind r hr)
    | some r' =>
      have hid' : r'.id = c.id := by simpa using List.find?_some hfind
      have hr' := (mem_rows (List.mem_of_find?_eq_some hfind)).1
      rw [MemDb.eq_of_id hids hr' (mem_rows hr).1 (hid'.trans hid)]

theorem mem_passed {id : String} : (q.passed db).any (·.1 = id) = true ↔ ∃ r ∈ q.admitted db, r.id = id := by
  simp [passed]

/-- Without a memory that was let through nothing is written. -/
theorem scanWith_fst : (q.scanWith U db).1 = (q.ops db).foldl (MemDb.apply U) db := by
  unfold scanWith
  by_cases hnone : (q.consolidations db).isEmpty = true
  · have hpassed : q.passed db = [] := by
      unfold passed admitted
      rw [List.isEmpty_iff.1 hnone]
      rfl
    have hops : q.ops db = [] := by
      unfold ops written
      rw [hpassed]
      simp
    rw [if_pos hnone, hops]
    rfl
  · rw [if_neg hnone, foldl_applyItem]
    unfold ops written
    rw [List.map_map]
    rfl

theorem mem_ops {op : MemDb.Op} (h : op ∈ q.ops db) : ∃ item ∈ q.accepted db, item.op (q.curated db) = op := by
  obtain ⟨item, hitem, rfl⟩ := List.mem_map.1 h
  obtain ⟨⟨item', i⟩, hmem, rfl⟩ := List.mem_map.1 hitem
  obtain ⟨hmem, hcond⟩ := List.mem_filter.1 hmem
  rw [Bool.and_eq_true] at hcond
  exact ⟨item', List.mem_filter.2 ⟨List.fst_mem_of_mem_zipIdx hmem, hcond.1⟩, rfl⟩

theorem landing_mem {curated : List (String × String)} {item : ConsolidateItem} {t : String}
    (h : item.landing curated = some t) : item.targetId = some t ∧ ∃ p ∈ curated, p.1 = t := by
  unfold ConsolidateItem.landing at h
  split at h
  · cases h
  · obtain ⟨htarget, hany⟩ := Option.filter_eq_some_iff.1 h
    exact ⟨htarget, by simpa using hany⟩

/-- The memories of a scan that may be moved, and those it may move them into. -/
def Source (q : DreamRun) (db : MemDb) (id : String) : Prop := ∃ r ∈ q.admitted db, r.id = id

def Target (q : DreamRun) (db : MemDb) (id : String) : Prop := ∃ p ∈ q.curated db, p.1 = id

theorem moves {op : MemDb.Op} (h : op ∈ q.ops db) : op.Moves (q.Source db) (q.Target db) := by
  obtain ⟨item, hitem, rfl⟩ := mem_ops h
  have hsource : q.Source db item.sourceId := mem_passed.1 (List.mem_filter.1 hitem).2
  unfold ConsolidateItem.op
  split
  · next t hland => exact ⟨hsource, (landing_mem hland).2⟩
  · exact hsource

theorem target_there {id : String} (h : q.Target db id) : ∃ r ∈ db.memory, r.tier = .curated ∧ r.id = id := by
  obtain ⟨p, hp, rfl⟩ := h
  obtain ⟨r, hr, htier, rfl⟩ := mem_curated hp
  exact ⟨r, hr, htier, rfl⟩

/-- What is shown as curated was not let through as an episode. -/
theorem target_not_source (hids : (db.memory.map (·.id)).Nodup) {id : String} (h : q.Target db id) :
    ¬ q.Source db id := by
  rintro ⟨r, hr, rfl⟩
  obtain ⟨r', hr', htier, hid⟩ := target_there h
  obtain ⟨hr, htier'⟩ := mem_rows ((mem_admitted hids).1 hr).1
  rw [MemDb.eq_of_id hids hr' hr hid, htier'] at htier
  cases htier

theorem memory_scanWith (h : db.Sound U) :
    (q.scanWith U db).1.memory = db.memory.filterMap (MemDb.fate (q.ops db)) := by
  rw [scanWith_fst]
  refine MemDb.memory_run h (fun _ => moves) (fun _ => target_not_source h.ids) ?_
  intro id hid
  obtain ⟨r, hr, -, heq⟩ := target_there hid
  exact ⟨r, hr, heq⟩

/-! ## What a scan touches -/

/-- The order in which the gates prefer candidates. -/
def priority (q : DreamRun) (r : MemoryRow) : ℚ :=
  q.fl ((toCandidate q.nowSecs r).importance * (toCandidate q.nowSecs r).useCount)

/-- Nothing but the memories let through is promoted, merged away or deleted, and of the others only curated
ones are rewritten, that were shown and that an accepted item names. -/
structure Confined (q : DreamRun) (db after : MemDb) : Prop where
  gated : ∀ r ∈ q.admitted db, r ∈ db.memory ∧ Gated (toCandidate q.nowSecs r) q.cfg
  few : (q.admitted db).length ≤ q.cfg.maxConsolidations
  best : ∀ r ∈ q.rows db, Gated (toCandidate q.nowSecs r) q.cfg → r ∉ q.admitted db →
    (q.admitted db).length = q.cfg.maxConsolidations ∧ ∀ a ∈ q.admitted db, q.priority r ≤ q.priority a
  kept : ∀ r ∈ db.memory, r ∉ q.admitted db → r ∈ after.memory ∨
    r.tier = .curated ∧ (r.id, r.text) ∈ q.curated db ∧ ∃ item ∈ q.accepted db, item.targetId = some r.id ∧
      MemDb.mergedInto item.mergedText (hashHex item.mergedText) r ∈ after.memory
  untrusted : ∀ r ∈ db.memory, r.tier = .episodic → r.origin = .untrusted ∨ r.origin = .system → r ∈ after.memory
  none_new : ∀ r' ∈ after.memory, ∃ r ∈ db.memory, r'.id = r.id ∧ r'.no = r.no

theorem gated_of_admitted (hids : (db.memory.map (·.id)).Nodup) {r : MemoryRow} (h : r ∈ q.admitted db) :
    r ∈ db.memory ∧ Gated (toCandidate q.nowSecs r) q.cfg := by
  obtain ⟨hr, k, hk, hid⟩ := (mem_admitted hids).1 h
  obtain ⟨c, hc, hgated, rfl⟩ := gated_of_dreamingGate hk
  obtain ⟨r', hr', rfl⟩ := List.mem_map.1 hc
  have heq : r' = r := MemDb.eq_of_id hids (mem_rows hr').1 (mem_rows hr).1 hid
  exact ⟨(mem_rows hr).1, heq ▸ hgated⟩

theorem length_admitted_le : (q.admitted db).length ≤ q.cfg.maxConsolidations :=
  (List.length_filterMap_le _ _).trans (length_dreamingGate _ _ _)

/-- For every consolidation there is a memory let through. -/
theorem length_admitted : (q.admitted db).length = (q.consolidations db).length := by
  unfold admitted
  rw [List.length_filterMap_eq_countP, List.countP_eq_length]
  intro k hk
  obtain ⟨c, hc, -, rfl⟩ := gated_of_dreamingGate hk
  obtain ⟨r, hr, rfl⟩ := List.mem_map.1 hc
  rw [List.find?_isSome]
  exact ⟨r, hr, by simp [toCandidate]⟩

theorem best_admitted (hids : (db.memory.map (·.id)).Nodup) {r : MemoryRow} (hr : r ∈ q.rows db)
    (hgated : Gated (toCandidate q.nowSecs r) q.cfg) (hout : r ∉ q.admitted db) :
    (q.admitted db).length = q.cfg.maxConsolidations ∧ ∀ a ∈ q.admitted db, q.priority r ≤ q.priority a := by
  have hk : ({ id := r.id, priority := q.priority r } : Consolidation) ∉ q.consolidations db :=
    fun h => hout ((mem_admitted hids).2 ⟨hr, _, h, rfl⟩)
  obtain ⟨hfull, hbest⟩ := dreamingGate_full (List.mem_map_of_mem hr) hgated hk
  refine ⟨length_admitted.trans hfull, ?_⟩
  intro a ha
  obtain ⟨ha, k, hk, hid⟩ := (mem_admitted hids).1 ha
  obtain ⟨c, hc, -, rfl⟩ := gated_of_dreamingGate hk
  obtain ⟨r', hr', rfl⟩ := List.mem_map.1 hc
  have heq : r' = a := MemDb.eq_of_id hids (mem_rows hr').1 (mem_rows ha).1 hid
  have := hbest _ hk
  rwa [heq] at this

theorem not_source (hids : (db.memory.map (·.id)).Nodup) {r : MemoryRow} (hr : r ∈ db.memory)
    (hout : r ∉ q.admitted db) : ¬ q.Source db r.id := by
  rintro ⟨a, ha, hid⟩
  rw [MemDb.eq_of_id hids (gated_of_admitted hids ha).1 hr hid] at ha
  exact hout ha

/-- A row that was not let through is as before, or as a merge into it has left it. -/
theorem kept_or_merged (h : db.Sound U) {r : MemoryRow} (hr : r ∈ db.memory) (hout : r ∉ q.admitted db) :
    ∃ r' ∈ (q.scanWith U db).1.memory, r' = r ∨ ∃ sourceId text hash,
      MemDb.Op.merge sourceId r.id text hash ∈ q.ops db ∧ r' = MemDb.mergedInto text hash r := by
  obtain ⟨r', hfate, hcase⟩ := MemDb.fate_of_not (fun _ => moves) (not_source h.ids hr hout)
  exact ⟨r', memory_scanWith h ▸ List.mem_filterMap.2 ⟨r, hr, hfate⟩, hcase⟩

/-- What is merged into was shown as curated, and an accepted item names it. -/
theorem shown_of_merge (hids : (db.memory.map (·.id)).Nodup) {r : MemoryRow} (hr : r ∈ db.memory)
    {sourceId text hash : String} (hop : MemDb.Op.merge sourceId r.id text hash ∈ q.ops db) :
    r.tier = .curated ∧ (r.id, r.text) ∈ q.curated db ∧ ∃ item ∈ q.accepted db,
      item.targetId = some r.id ∧ item.mergedText = text ∧ hashHex item.mergedText = hash := by
  obtain ⟨item, hitem, heq⟩ := mem_ops hop
  unfold ConsolidateItem.op at heq
  split at heq
  · next t hland =>
    obtain ⟨rfl, rfl, rfl, rfl⟩ := heq
    obtain ⟨htarget, p, hp, hid⟩ := landing_mem hland
    obtain ⟨r', hr', htier, rfl⟩ := mem_curated hp
    obtain rfl := MemDb.eq_of_id hids hr' hr hid
    exact ⟨htier, hp, item, hitem, htarget, rfl, rfl⟩
  · cases heq

/-- The gates trust the owner and the agent. -/
theorem not_admitted_of_untrusted (hids : (db.memory.map (·.id)).Nodup) {r : MemoryRow}
    (horigin : r.origin = .untrusted ∨ r.origin = .system) : r ∉ q.admitted db := by
  intro ha
  have htrusted : r.origin = .owner ∨ r.origin = .agent := (gated_of_admitted hids ha).2.origin
  rcases horigin with h | h <;> simp [h] at htrusted

/-- Whatever the model answers, a scan keeps to the memories that pass the gates and to the curated ones it
has shown. -/
theorem scan_confined (q : DreamRun) (U : Unicode) (db : MemDb) (h : db.Sound U) :
    q.Confined db (q.scanWith U db).1 := by
  refine ⟨fun r hr => gated_of_admitted h.ids hr, length_admitted_le, fun r hr => best_admitted h.ids hr, ?_, ?_, ?_⟩
  · intro r hr hout
    obtain ⟨r', hr', rfl | ⟨sourceId, text, hash, hop, rfl⟩⟩ := kept_or_merged h hr hout
    · exact .inl hr'
    · obtain ⟨htier, hshown, item, hitem, htarget, rfl, rfl⟩ := shown_of_merge h.ids hr hop
      exact .inr ⟨htier, hshown, item, hitem, htarget, hr'⟩
  · intro r hr htier horigin
    obtain ⟨r', hr', rfl | ⟨sourceId, text, hash, hop, rfl⟩⟩ :=
      kept_or_merged h hr (not_admitted_of_untrusted h.ids horigin)
    · exact hr'
    · exact absurd ((shown_of_merge h.ids hr hop).1.symm.trans htier) (by decide)
  · intro r' hr'
    rw [memory_scanWith h] at hr'
    obtain ⟨r, hr, hfate⟩ := List.mem_filterMap.1 hr'
    exact ⟨r, hr, MemDb.fate_some hfate⟩

/-- A model that gives one JSON object to every prompt, with these members. -/
def answering (members : String) (items : List ConsolidateItem) : DreamRun :=
  { nowSecs := 864000, cfg := .default, order := .table, fl := id
    fromStr := fun s => if s = '\x7b' :: members.toList ++ ['\x7d'] then some items else none
    provider := some fun _ =>
      { opens := true, items := [.ok (.text ("\x7b" ++ members ++ "\x7d")), .ok (.done .stop)], stalls := false }
    readsCandidates := true, readsCurated := true, commits := fun _ => true }

theorem trim_braced (s : List Char) : RustStr.trim ('\x7b' :: s ++ ['\x7d']) = '\x7b' :: s ++ ['\x7d'] := by
  unfold RustStr.trim RustStr.trimStart RustStr.trimEnd
  rw [List.cons_append, List.dropWhile_cons, if_neg (by decide), ← List.cons_append,
    List.rdropWhile_concat_neg _ _ _ (by decide)]

theorem braced_braced (s : List Char) : braced ('\x7b' :: s ++ ['\x7d']) = some ('\x7b' :: s ++ ['\x7d']) := by
  unfold braced
  have hopen : ('\x7b' :: s ++ ['\x7d']).idxOf '\x7b' = 0 := by simp
  have hclose : ('\x7b' :: s ++ ['\x7d']).reverse.idxOf '\x7d' = 0 := by simp
  have hboth : ('\x7b' :: s ++ ['\x7d']).contains '\x7b' = true ∧ ('\x7b' :: s ++ ['\x7d']).contains '\x7d' = true := by
    simp
  rw [if_pos hboth, hopen, hclose]
  simp

/-- The object is the answer. -/
theorem items_answering (members : String) (items : List ConsolidateItem) (db : MemDb) :
    (answering members items).items db = items := by
  have hchars : ("" ++ ("\x7b" ++ members ++ "\x7d")).toList = '\x7b' :: members.toList ++ ['\x7d'] := by
    simp
  have hanswer : runModelWithSystem
      { opens := true, items := [.ok (.text ("\x7b" ++ members ++ "\x7d")), .ok (.done .stop)], stalls := false } =
        some (String.ofList ('\x7b' :: members.toList ++ ['\x7d'])) := by
    simp only [runModelWithSystem, modelText, collect, hchars, trim_braced, Bool.false_eq_true, if_false]
    rfl
  have hparse : parseConsolidations (answering members items).fromStr
      (String.ofList ('\x7b' :: members.toList ++ ['\x7d'])) = some items := by
    unfold parseConsolidations
    have hfence : stripFence ('\x7b' :: members.toList ++ ['\x7d']) = none := rfl
    simp only [String.toList_ofList, trim_braced, hfence, Option.getD_none, braced_braced, Option.bind_some]
    exact if_pos rfl
  show ((runModelWithSystem _).bind _).getD _ = items
  rw [hanswer, Option.bind_some, hparse, Option.getD_some]

/-- A curated memory and two episodes that have been used twice, one of them untrusted. -/
def untrustedActs : List MemDb.Act :=
  [.commits (.upsert (testMemory "c" .curated "VS Code") 0), .commits (.upsert (testMemory "e" .episodic "Neovim") 0),
    .commits (.upsert { testMemory "u" .episodic "Emacs" with origin := .untrusted } 0), .commits (.touch "e" 1),
    .commits (.touch "e" 2), .commits (.touch "u" 1), .commits (.touch "u" 2)]

/-- The answer asks for the untrusted episode too. -/
def untrustedAnswer : DreamRun :=
  answering
    "\"actions\":[\x7b\"source_id\":\"u\",\"action\":\"create\",\"target_id\":null,\"merged_text\":\"Emacs\"\x7d,\x7b\"source_id\":\"e\",\"action\":\"correct\",\"target_id\":\"c\",\"merged_text\":\"Neovim\"\x7d]"
    [{ sourceId := "u", action := .create, targetId := none, mergedText := "Emacs" },
      { sourceId := "e", action := .correct, targetId := some "c", mergedText := "Neovim" }]

theorem scan_confined_untrusted : ∃ db, Steps.exec (MemDb.step testUnicode) .empty untrustedActs = some db ∧
    untrustedAnswer.Confined db (untrustedAnswer.scanWith testUnicode db).1 ∧
    (untrustedAnswer.scanWith testUnicode db).1.memory.map (fun r => (r.id, r.text)) = [("c", "Neovim"), ("u", "Emacs")] := by
  have hrun : (Steps.exec (MemDb.step testUnicode) .empty untrustedActs).map (fun db =>
      (untrustedAnswer.scanWith testUnicode db).1.memory.map fun r => (r.id, r.text)) =
        some [("c", "Neovim"), ("u", "Emacs")] := by
    simp only [scanWith, untrustedAnswer, items_answering]
    decide +kernel
  obtain ⟨db, hdb, htexts⟩ := Option.map_eq_some_iff.1 hrun
  exact ⟨db, hdb, scan_confined untrustedAnswer testUnicode db (MemDb.sound_of_run hdb), htexts⟩

end DreamRun

end OhMyClaw
