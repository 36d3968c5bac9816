import OhMyClaw.Server.Consolidate

/-!
# What a broken turn does to stored text

Three model turns end in a write that replaces what was there: the summary of a compaction, the
decisions of a dreaming scan and the new `MEMORY.md`.  None of them looks at how its stream ended.  The
decisions have a way out besides: if the turn brings nothing, or nothing that can be read, every memory
let through is created as it is, and the rewriting of the file follows all the same.

    memoryMd_eq_iff     when a scan leaves `MEMORY.md` as it was
    turn_text_iff       all three turns, whatever they were like
-/

namespace OhMyClaw

namespace DreamRun

variable (q : DreamRun)

/-- `MEMORY.md` after a scan.  `before` is the file as the rewriting began, `now` as its turn ended. -/
def memoryMd (U : Unicode) (db : MemDb) (before now : Option String) (rewriting : ProviderTurn) (disk : Disk) :
    Option String :=
  let mergedTexts := (q.scanWith U db).2
  if 0 < mergedTexts.length then
    match q.provider with
    | some _ => rewriteMemoryMd mergedTexts before now rewriting disk
    | none => now
  else now

/-- The turn in which the model decides. -/
def deciding (db : MemDb) (ask : String → ProviderTurn) : ProviderTurn :=
  ask (buildConsolidateDecisionPrompt (q.curated db) (q.passed db))

/-- No decision comes of the turn. -/
def Unread (turn : ProviderTurn) : Prop :=
  turn.Silent false ∨ parseConsolidations q.fromStr turn.body = none

/-- Every write fails that the turn asks for; a turn of which no decision comes asks for one for each memory that was
let through. -/
def Unwritten (db : MemDb) (turn : ProviderTurn) : Prop :=
  (q.Unread turn → ∀ i < (q.passed db).length, q.commits i = false) ∧
  ∀ items, ¬ turn.Silent false → parseConsolidations q.fromStr turn.body = some items →
    ∀ i item, items[i]? = some item → (q.passed db).any (·.1 = item.sourceId) = true → q.commits i = false

variable {q} {U : Unicode} {db : MemDb}

/-! ## The texts a scan hands on -/

theorem foldl_applyItem_snd (passed curated : List (String × String)) (items : List (ConsolidateItem × Nat))
    (st : MemDb × List String) :
    (items.foldl (q.applyItem U passed curated) st).2 =
      st.2 ++ (items.filter fun item => passed.any (·.1 = item.1.sourceId) && q.commits item.2).map (·.1.mergedText) := by
  induction items generalizing st with
  | nil => simp
  | cons item items ih =>
    rw [List.foldl_cons, ih]
    unfold applyItem
    by_cases hpassed : passed.any (·.1 = item.1.sourceId) = true
    · by_cases hcommits : q.commits item.2 = true
      · simp [hpassed, hcommits]
      · simp [hpassed, hcommits]
    · simp [hpassed]

theorem scanWith_snd : (q.scanWith U db).2 = (q.written db).map (·.mergedText) := by
  unfold scanWith written
  by_cases hnone : (q.consolidations db).isEmpty = true
  · have hpassed : q.passed db = [] := by
      unfold passed admitted
      rw [List.isEmpty_iff.1 hnone]
      rfl
    rw [if_pos hnone, hpassed]
    simp
  · rw [if_neg hnone, foldl_applyItem_snd, List.nil_append, List.map_map]
    rfl

theorem written_eq_nil : q.written db = [] ↔ ∀ i item, (q.items db)[i]? = some item →
    (q.passed db).any (·.1 = item.sourceId) = true → q.commits i = false := by
  unfold written
  rw [List.map_eq_nil_iff, List.filter_eq_nil_iff]
  constructor
  · intro h i item hitem hpassed
    have hnot := h (item, i) (List.mem_zipIdx_iff_getElem?.2 hitem)
    simpa [hpassed] using hnot
  · rintro h ⟨item, i⟩ hmem
    have hitem := List.mem_zipIdx_iff_getElem?.1 hmem
    rw [Bool.and_eq_true]
    rintro ⟨hpassed, hcommits⟩
    rw [h i item hitem hpassed] at hcommits
    cases hcommits

theorem items_of_unread {ask : String → ProviderTurn} (hask : q.provider = some ask)
    (h : q.Unread (q.deciding db ask)) : q.items db = allCreate (q.passed db) := by
  have hnone : (runModelWithSystem (q.deciding db ask)).bind (parseConsolidations q.fromStr) = none := by
    by_cases hsilent : (q.deciding db ask).Silent false
    · rw [runModelWithSystem, (modelText_eq_none_iff ..).2 hsilent]
      rfl
    · rw [runModelWithSystem_of_not_silent hsilent, Option.bind_some]
      exact h.resolve_left hsilent
  unfold items
  rw [hask]
  show ((runModelWithSystem (q.deciding db ask)).bind (parseConsolidations q.fromStr)).getD _ = _
  rw [hnone]
  rfl

theorem items_of_read {ask : String → ProviderTurn} (hask : q.provider = some ask) {items : List ConsolidateItem}
    (hsilent : ¬ (q.deciding db ask).Silent false)
    (hread : parseConsolidations q.fromStr (q.deciding db ask).body = some items) : q.items db = items := by
  unfold DreamRun.items
  rw [hask]
  show ((runModelWithSystem (q.deciding db ask)).bind (parseConsolidations q.fromStr)).getD _ = _
  rw [runModelWithSystem_of_not_silent hsilent, Option.bind_some, hread]
  rfl

/-- Each memory let through is named by the item that creates it. -/
theorem named_allCreate {passed : List (String × String)} {i : Nat} {item : ConsolidateItem}
    (h : (allCreate passed)[i]? = some item) : passed.any (·.1 = item.sourceId) = true := by
  obtain ⟨p, hp, rfl⟩ := List.mem_map.1 (List.mem_of_getElem? h)
  exact List.any_eq_true.2 ⟨p, hp, by simp⟩

theorem written_eq_nil_iff {ask : String → ProviderTurn} (hask : q.provider = some ask) :
    q.written db = [] ↔ q.Unwritten db (q.deciding db ask) := by
  rw [written_eq_nil]
  by_cases hunread : q.Unread (q.deciding db ask)
  · rw [items_of_unread hask hunread]
    constructor
    · intro h
      refine ⟨fun _ i hi => ?_, fun items hsilent hread => ?_⟩
      · have hlt : i < (allCreate (q.passed db)).length := by
          unfold allCreate
          rw [List.length_map]
          exact hi
        have hget := List.getElem?_eq_getElem hlt
        exact h i _ hget (named_allCreate hget)
      · rcases hunread with hsilent' | hnone
        · exact absurd hsilent' hsilent
        · rw [hnone] at hread
          cases hread
    · intro h i item hitem _
      obtain ⟨hlt, -⟩ := List.getElem?_eq_some_iff.1 hitem
      unfold allCreate at hlt
      rw [List.length_map] at hlt
      exact h.1 hunread i hlt
  · obtain ⟨hsilent, hsome⟩ := not_or.1 hunread
    obtain ⟨items, hread⟩ := Option.ne_none_iff_exists'.1 hsome
    rw [items_of_read hask hsilent hread]
    constructor
    · intro h
      refine ⟨fun h' => absurd h' hunread, fun items' _ hread' => ?_⟩
      obtain rfl := Option.some.inj (hread.symm.trans hread')
      exact h
    · intro h
      exact h.2 items hsilent hread

/-- The file stays as it was exactly if there is no model, nothing the model decides is written, or the rewriting
leaves it. -/
theorem memoryMd_eq_iff (q : DreamRun) (U : Unicode) (db : MemDb) (before now : Option String)
    (rewriting : ProviderTurn) (disk : Disk) :
    q.memoryMd U db before now rewriting disk = now ↔
      (∀ ask, q.provider = some ask → q.Unwritten db (q.deciding db ask)) ∨
      rewriting.Silent false ∨ disk = .refuses ∨
      contentHash (readOrEmpty before) = contentHash (readOrEmpty now) ∧
        (disk = .stopsShort ∨ now = some (ensureTrailingNewline rewriting.body)) := by
  have hlength : 0 < (q.scanWith U db).2.length ↔ q.written db ≠ [] := by
    rw [scanWith_snd, List.length_map, List.length_pos_iff]
  unfold memoryMd
  simp only [hlength]
  cases hprovider : q.provider with
  | none => simp
  | some ask =>
    have hunwritten : q.written db = [] ↔ q.Unwritten db (q.deciding db ask) := written_eq_nil_iff hprovider
    simp only [Option.some.injEq, forall_eq']
    by_cases hnone : q.written db = []
    · rw [if_neg (not_not.2 hnone)]
      exact iff_of_true rfl (Or.inl (hunwritten.1 hnone))
    · have htexts : (q.scanWith U db).2 ≠ [] := by
        rw [scanWith_snd]
        exact fun h => hnone (List.map_eq_nil_iff.1 h)
      rw [if_pos hnone, rewriteMemoryMd_eq_iff, or_iff_right htexts,
        or_iff_right fun h => hnone (hunwritten.2 h)]

end DreamRun

/-- Every turn is acted on as far as it came, however it ended.  The store stays as it was exactly if nothing came of
the summary or nothing could be done with it; the file, exactly if no write came of the decisions, or nothing of the
rewriting or nothing could be done with it. -/
theorem turn_text_iff (turn : ProviderTurn) (db : Db) (id : String) (cfg : SessionConfig) (loads : Bool) (q : DreamRun)
    (U : Unicode) (memory : MemDb) (before now : Option String) (rewriting : ProviderTurn) (disk : Disk) :
    (compactCore db id cfg loads turn = db ↔
      loads = false ∨
      (loadTranscript db id cfg.maxHistoryEntries).length ≤ CompactCfg.default.keepRecent + 1 ∨
      turn.Silent true ∨ db.hasSession id = false) ∧
    (q.memoryMd U memory before now rewriting disk = now ↔
      (∀ ask, q.provider = some ask → q.Unwritten memory (q.deciding memory ask)) ∨
      rewriting.Silent false ∨ disk = .refuses ∨
      contentHash (readOrEmpty before) = contentHash (readOrEmpty now) ∧
        (disk = .stopsShort ∨ now = some (ensureTrailingNewline rewriting.body))) :=
  ⟨compactCore_eq_self_iff db id cfg loads turn, q.memoryMd_eq_iff U memory before now rewriting disk⟩

/-- A text that comes is written over the file. -/
theorem memoryMd_ne {q : DreamRun} {U : Unicode} {db : MemDb} {ask : String → ProviderTurn} {file : String}
    {rewriting : ProviderTurn} (hask : q.provider = some ask) (htexts : (q.scanWith U db).2 ≠ [])
    (hsilent : ¬ rewriting.Silent false) (hbody : file ≠ ensureTrailingNewline rewriting.body) :
    q.memoryMd U db (some file) (some file) rewriting .accepts ≠ some file := by
  have hwritten : q.written db ≠ [] := by
    rw [DreamRun.scanWith_snd] at htexts
    exact fun h => htexts (by rw [h]; rfl)
  rw [Ne, DreamRun.memoryMd_eq_iff]
  rintro (hunwritten | hsilent' | hrefuses | ⟨-, hstops | hsame⟩)
  · exact hwritten ((DreamRun.written_eq_nil_iff hask).2 (hunwritten ask hask))
  · exact hsilent hsilent'
  · cases hrefuses
  · cases hstops
  · exact hbody (Option.some.inj hsame)

/-- An answer that breaks off after its first words. -/
def brokenTurn : ProviderTurn :=
  { opens := true, items := [.ok (.text "half"), .error "connection reset"], stalls := false }

theorem brokenTurn_not_silent (stopsAtDone : Bool) : ¬ brokenTurn.Silent stopsAtDone := by
  unfold ProviderTurn.Silent ProviderTurn.TimesOut ProviderTurn.Blank
  cases stopsAtDone <;> decide

/-- A session with eight entries. -/
def eightEntries : Db :=
  { sessions := [{ id := "s", resetAt := 0 }]
    entries := (List.range 8).map fun i => (NewEntry.text "s" .user "hello" 1).toEntry (i + 1) }

/-- A whole answer. -/
def wholeTurn : ProviderTurn := { opens := true, items := [.ok (.text "Neovim"), .ok (.done .stop)], stalls := false }

theorem wholeTurn_not_silent : ¬ wholeTurn.Silent false := by
  unfold ProviderTurn.Silent ProviderTurn.TimesOut ProviderTurn.Blank
  decide

/-- A scan whose deciding turn breaks off. -/
def brokenDecision : DreamRun := { DreamRun.untrustedAnswer with provider := some fun _ => brokenTurn }

/-- The broken answer becomes the session's summary; as a new `MEMORY.md` it takes the place of the file; and where it
was to bring the decisions, the file is rewritten all the same. -/
theorem turn_text_fails_on_break :
    brokenTurn.Abnormal ∧
    compactCore eightEntries "s" { maxHistoryEntries := 100, historyTokenBudget := 4000 } true
      brokenTurn ≠ eightEntries ∧
    ∃ db, Steps.exec (MemDb.step testUnicode) .empty DreamRun.untrustedActs = some db ∧
      DreamRun.untrustedAnswer.memoryMd testUnicode db (some "old\n") (some "old\n") brokenTurn .accepts ≠ some "old\n" ∧
      brokenDecision.memoryMd testUnicode db (some "old\n") (some "old\n") wholeTurn .accepts ≠ some "old\n" := by
  refine ⟨rfl, ?_, ?_⟩
  · have hlen : (loadTranscript eightEntries "s" 100).length = 8 := by decide
    have hs : eightEntries.hasSession "s" = true := by decide
    rw [Ne, compactCore_eq_self_iff]
    simp [hlen, hs, brokenTurn_not_silent, CompactCfg.default]
  · have hrun : (Steps.exec (MemDb.step testUnicode) .empty DreamRun.untrustedActs).map (fun db =>
        ((DreamRun.untrustedAnswer.scanWith testUnicode db).2, (brokenDecision.scanWith testUnicode db).2)) =
          some (["Neovim"], ["Neovim"]) := by
      simp only [DreamRun.scanWith, DreamRun.untrustedAnswer, DreamRun.items_answering]
      decide +kernel
    obtain ⟨db, hdb, htexts⟩ := Option.map_eq_some_iff.1 hrun
    obtain ⟨hdecided, hcreated⟩ := Prod.mk.inj htexts
    refine ⟨db, hdb, memoryMd_ne rfl ?_ (brokenTurn_not_silent false) (by decide),
      memoryMd_ne rfl ?_ wholeTurn_not_silent (by decide)⟩
    · rw [hdecided]
      exact List.cons_ne_nil _ _
    · rw [hcreated]
      exact List.cons_ne_nil _ _

end OhMyClaw
