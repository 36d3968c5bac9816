import OhMyClaw.Lib.SingleWriter
import OhMyClaw.Store.Audit
import OhMyClaw.Store.Cron
import OhMyClaw.Store.Intents
import OhMyClaw.Store.MemoryRows
import OhMyClaw.Store.MemorySearch
import OhMyClaw.Store.TranscriptRuns

/-!
# The writer thread and the readers beside it

The whole store: its tables, the commands of the thread that writes them, and the statements the pool of
readers runs beside it.  The pool loads a transcript in two statements, one for `reset_at` and one for the
entries; something may be written between them.

    Tables.execute          one command, on all the tables
    store_linearized        any callers, any end of the thread: as if the commands were done one by one
    acknowledged_kept       an append that was acknowledged stays where its caller was told it is
    load_beside             what a load beside the thread shows
-/

namespace OhMyClaw

open SingleWriter

/-- The columns of the table `session` that `Db` leaves out. -/
structure SessionColumns where
  id : String
  kind : String
  createdAt : Int
deriving DecidableEq, Repr

/-- A row of `session_list`. -/
structure SessionListRow extends SessionColumns where
  resetAt : Nat
deriving DecidableEq, Repr

structure Tables where
  db : Db
  columns : List SessionColumns
  memory : MemDb
  cron : CronDb
  intents : IntentDb
  audit : List AuditRow

inductive WriteCmd where
  | ensureSession (id kind : String)
  | appendEntry (entry : NewEntry)
  | resetSession (id : String)
  | sessionList
  | compactWithSummary (sessionId : String) (upToSeq : Int) (summaryText : String)
  | upsertMemory (mem : NewMemory)
  | touchMemory (id : String) (usedAt : Int)
  | loadTranscript (sessionId : String) (maxEntries : Int)
  | searchCandidates (queryTerms : List String) (tierFilter : Option Tier) (limit : Int)
  | dreamCandidates (limit : Int)
  | promoteMemory (id : String)
  | mergeMemory (sourceId targetId mergedText mergedContentHash : String)
  | curatedList
  | memoryByPrefKey (key : String)
  | deleteMemory (id : String)
  | writeAudit (actor action : String) (payload : Option String)
  | cronAdd (cron : NewCron)
  | cronList
  | cronRm (id : String)
  | cronMarkFired (id : String) (firedAt : Int) (nextAt : Option Int)
  | intentAdd (intent : NewStandingIntent)
  | intentList
  | intentRm (id : String)
  | intentMarkFired (id : String) (firedAt : Int)
  | ping
  /-- The first statement of `load_transcript`. -/
  | selectResetAt (sessionId : String)
  /-- The second one. -/
  | selectEntries (sessionId : String) (resetAt : Nat) (maxEntries : Int)
deriving DecidableEq, Repr

/-- The two clocks, and whether the command fails: then it is rolled back. -/
structure StoreEnv where
  nowMillis : Int
  nowSecs : Int
  fails : Bool
deriving DecidableEq, Repr

inductive StoreReply where
  | done
  | seq (n : Nat)
  | found (b : Bool)
  | sessions (rows : List SessionListRow)
  | entries (es : List Entry)
  | memories (rows : List MemoryRow)
  | texts (rows : List (String × String))
  | crons (rows : List CronRow)
  | intents (rows : List StandingIntentRow)
  | error
deriving DecidableEq, Repr

/-- What SQLite decides: the order it comes upon rows in, and what a search finds or fails with. -/
structure Sqlite (U : Unicode) where
  engine : SearchEngine U
  memories : RowOrder
  intents : VisitOrder IntentRow
  sessions : VisitOrder SessionListRow

namespace Tables

def empty : Tables :=
  { db := .empty, columns := [], memory := .empty, cron := .empty, intents := .empty, audit := [] }

/-- Does nothing when the session is there. -/
def ensureSession (id kind : String) (now : Int) (t : Tables) : Tables :=
  if t.db.hasSession id then t
  else { t with db := OhMyClaw.ensureSession t.db id, columns := t.columns ++ [{ id, kind, createdAt := now }] }

/-- `ORDER BY created_at DESC`. -/
def sessionList (V : VisitOrder SessionListRow) (t : Tables) : List SessionListRow :=
  (V.visit (t.columns.map fun c => { c with resetAt := t.db.resetAt c.id })).insertionSort fun a b =>
    b.createdAt ≤ a.createdAt

end Tables

/-- The entries behind `resetAt`. -/
def selectEntries (db : Db) (id : String) (resetAt : Nat) (maxEntries : Int) : List Entry :=
  (sqlLimit maxEntries (((db.log id).filter (resetAt < ·.seq)).insertionSort fun a b => b.seq ≤ a.seq)).reverse

variable {U : Unicode} (S : Sqlite U)

/-- A command that does not fail. -/
def Tables.perform (t : Tables) (env : StoreEnv) : WriteCmd → Tables × StoreReply
  | .ensureSession id kind => (t.ensureSession id kind env.nowMillis, .done)
  | .appendEntry entry =>
    match appendEntry t.db entry with
    | some (db, seq) => ({ t with db }, .seq seq)
    | none => (t, .error)
  | .resetSession id => ({ t with db := resetSession t.db id }, .done)
  | .sessionList => (t, .sessions (t.sessionList S.sessions))
  | .compactWithSummary sessionId upToSeq summaryText =>
    -- a negative `up_to_seq` never moves `reset_at`
    match compactWithSummary t.db sessionId upToSeq.toNat summaryText with
    | some db => ({ t with db }, .done)
    | none => (t, .error)
  | .upsertMemory mem => ({ t with memory := t.memory.upsertMemory U mem env.nowMillis }, .done)
  | .touchMemory id usedAt => ({ t with memory := t.memory.touchMemory id usedAt }, .done)
  | .loadTranscript sessionId maxEntries => (t, .entries (loadTranscript t.db sessionId maxEntries))
  | .searchCandidates queryTerms tierFilter limit =>
    (t, match searchCandidates S.engine t.memory queryTerms tierFilter limit with
      | some rows => .memories rows
      | none => .error)
  | .dreamCandidates limit => (t, .memories (t.memory.dreamCandidates S.memories limit))
  | .promoteMemory id => ({ t with memory := t.memory.promoteMemory id }, .done)
  | .mergeMemory sourceId targetId mergedText mergedContentHash =>
    ({ t with memory := t.memory.mergeMemory U sourceId targetId mergedText mergedContentHash }, .done)
  | .curatedList => (t, .texts t.memory.curatedList)
  | .memoryByPrefKey key => (t, .memories (t.memory.memoryByPrefKey S.memories key))
  | .deleteMemory id => ({ t with memory := t.memory.deleteMemory id }, .found (t.memory.noOf id).isSome)
  | .writeAudit actor action payload =>
    ({ t with audit := writeAudit t.audit { atMillis := env.nowMillis, actor, action, payload, commits := true } }, .done)
  | .cronAdd cron =>
    match t.cron.cronAdd cron with
    | some cron => ({ t with cron }, .done)
    | none => (t, .error)
  | .cronList => (t, .crons t.cron.cronList)
  | .cronRm id => ({ t with cron := (t.cron.cronRm id).2 }, .found (t.cron.cronRm id).1)
  | .cronMarkFired id firedAt nextAt => ({ t with cron := t.cron.cronMarkFired id firedAt nextAt }, .done)
  | .intentAdd intent =>
    match t.intents.intentAdd intent env.nowSecs with
    | some intents => ({ t with intents }, .done)
    | none => (t, .error)
  | .intentList => (t, .intents (t.intents.intentList S.intents))
  | .intentRm id => ({ t with intents := (t.intents.intentRm id).2 }, .found (t.intents.intentRm id).1)
  | .intentMarkFired id firedAt => ({ t with intents := t.intents.intentMarkFired id firedAt }, .done)
  | .ping => (t, .done)
  | .selectResetAt sessionId => (t, .seq (t.db.resetAt sessionId))
  | .selectEntries sessionId resetAt maxEntries => (t, .entries (selectEntries t.db sessionId resetAt maxEntries))

def Tables.execute (t : Tables) (c : WriteCmd) (env : StoreEnv) : Tables × StoreReply :=
  if env.fails then (t, .error) else t.perform S env c

/-- The statements the pool runs; each sees the store as the last command left it. -/
def WriteCmd.beside : WriteCmd → Bool
  | .sessionList | .searchCandidates .. | .dreamCandidates _ | .curatedList | .memoryByPrefKey _ | .cronList
  | .intentList | .selectResetAt _ | .selectEntries .. => true
  | _ => false

/-- The store as its callers see it. -/
def store : Object Tables WriteCmd StoreEnv StoreReply where
  apply := Tables.execute S
  reads := WriteCmd.beside
  readOnly t c env h := by
    unfold Tables.execute
    split
    · rfl
    · cases c <;> first | rfl | cases h

/-! ## What a command does to the tables -/

section Commands

variable {S} {t t' : Tables} {c : WriteCmd} {env : StoreEnv}

/-- All a command can do. -/
inductive Changed (U : Unicode) (t : Tables) : Tables → Prop
  | same : Changed U t t
  | ensured (id kind : String) (now : Int) : Changed U t (t.ensureSession id kind now)
  | appended {e : NewEntry} {db : Db} {seq : Nat} (h : appendEntry t.db e = some (db, seq)) : Changed U t { t with db }
  | reset (id : String) : Changed U t { t with db := resetSession t.db id }
  | compacted {id summaryText : String} {upToSeq : Nat} {db : Db}
      (h : compactWithSummary t.db id upToSeq summaryText = some db) : Changed U t { t with db }
  | memory (op : MemDb.Op) : Changed U t { t with memory := t.memory.apply U op }
  | audited (w : AuditWrite) : Changed U t { t with audit := writeAudit t.audit w }
  | cron (cron : CronDb) : Changed U t { t with cron }
  | intents (intents : IntentDb) : Changed U t { t with intents }

theorem changed_execute (t : Tables) (c : WriteCmd) (env : StoreEnv) : Changed U t (t.execute S c env).1 := by
  unfold Tables.execute
  split
  · exact .same
  · cases c with
    | ensureSession id kind => exact .ensured id kind _
    | appendEntry entry =>
      simp only [Tables.perform]
      split
      · next happ => exact .appended happ
      · exact .same
    | resetSession id => exact .reset id
    | compactWithSummary sessionId upToSeq summaryText =>
      simp only [Tables.perform]
      split
      · next hc => exact .compacted hc
      · exact .same
    | upsertMemory mem => exact .memory (.upsert mem _)
    | touchMemory id usedAt => exact .memory (.touch id usedAt)
    | promoteMemory id => exact .memory (.promote id)
    | mergeMemory sourceId targetId text hash => exact .memory (.merge sourceId targetId text hash)
    | deleteMemory id => exact .memory (.delete id)
    | writeAudit actor action payload => exact .audited _
    | cronAdd cron =>
      simp only [Tables.perform]
      split
      · exact .cron _
      · exact .same
    | cronRm id => exact .cron _
    | cronMarkFired id firedAt nextAt => exact .cron _
    | intentAdd intent =>
      simp only [Tables.perform]
      split
      · exact .intents _
      · exact .same
    | intentRm id => exact .intents _
    | intentMarkFired id firedAt => exact .intents _
    | _ => exact .same

/-- What holds of the tables whatever the commands were. -/
structure Tables.Sound (U : Unicode) (t : Tables) : Prop where
  numbered : t.db.Numbered
  columns : t.columns.map (·.id) = t.db.sessions.map (·.id)
  sessions : (t.db.sessions.map (·.id)).Nodup
  memory : t.memory.Sound U
  audit : Chained t.audit

theorem Tables.sound_empty : Tables.empty.Sound U :=
  ⟨fun _ => rfl, rfl, List.nodup_nil, MemDb.sound_empty, auditRows_chained []⟩

theorem ids_setResetAt (db : Db) (id : String) (f : Nat → Nat) :
    (db.setResetAt id f).sessions.map (·.id) = db.sessions.map (·.id) := by
  unfold Db.setResetAt
  rw [List.map_map]
  refine List.map_congr_left fun row _ => ?_
  dsimp only [Function.comp]
  split <;> rfl

theorem ids_compactWithSummary {db db' : Db} {id summaryText : String} {upToSeq : Nat}
    (h : compactWithSummary db id upToSeq summaryText = some db') :
    db'.sessions.map (·.id) = db.sessions.map (·.id) := by
  obtain ⟨db₁, seq, happ, rfl⟩ := compactWithSummary_eq_some.1 h
  obtain ⟨-, -, rfl⟩ := appendEntry_eq_some.1 happ
  exact ids_setResetAt _ _ _

/-- Every command keeps the tables sound. -/
theorem Tables.Sound.changed (h : t.Sound U) (hc : Changed U t t') : t'.Sound U := by
  cases hc with
  | same => exact h
  | ensured id kind now =>
    unfold Tables.ensureSession
    split
    · exact h
    · next hnew =>
      have hids : (OhMyClaw.ensureSession t.db id).sessions.map (·.id) = t.db.sessions.map (·.id) ++ [id] := by
        simp [OhMyClaw.ensureSession, hnew]
      refine ⟨fun id' => ?_, ?_, ?_, h.memory, h.audit⟩
      · rw [log_ensureSession]
        exact h.numbered id'
      · rw [hids, ← h.columns, List.map_append]
        rfl
      · rw [hids]
        refine List.Nodup.append h.sessions (List.nodup_singleton id) ?_
        simpa [Db.hasSession] using hnew
  | appended happ =>
    obtain ⟨-, -, rfl⟩ := appendEntry_eq_some.1 happ
    exact ⟨numbered_appendEntry h.numbered happ, h.columns, h.sessions, h.memory, h.audit⟩
  | reset id =>
    have hids := ids_setResetAt t.db id fun _ => t.db.maxSeq id
    exact ⟨numbered_resetSession h.numbered id, h.columns.trans hids.symm, hids ▸ h.sessions, h.memory, h.audit⟩
  | compacted hcompact =>
    have hids := ids_compactWithSummary hcompact
    exact ⟨numbered_compactWithSummary h.numbered hcompact, h.columns.trans hids.symm, hids ▸ h.sessions, h.memory,
      h.audit⟩
  | memory op =>
    exact ⟨h.numbered, h.columns, h.sessions, MemDb.sound_step (a := .commits op) h.memory rfl, h.audit⟩
  | audited w => exact ⟨h.numbered, h.columns, h.sessions, h.memory, writeAudit_chained h.audit w⟩
  | cron cron => exact ⟨h.numbered, h.columns, h.sessions, h.memory, h.audit⟩
  | intents intents => exact ⟨h.numbered, h.columns, h.sessions, h.memory, h.audit⟩

/-- No command takes an entry away. -/
theorem Changed.grows (hc : Changed U t t') (id : String) : t.db.log id <+: t'.db.log id := by
  cases hc with
  | ensured id' kind now =>
    unfold Tables.ensureSession
    split
    · exact List.prefix_rfl
    · rw [log_ensureSession]
  | appended happ =>
    rename_i e db seq
    by_cases hid : id = e.sessionId
    · rw [hid, log_appendEntry happ]
      exact List.prefix_append _ _
    · rw [log_appendEntry_ne happ hid]
  | compacted hcompact =>
    rename_i id' summaryText upToSeq db
    by_cases hid : id = id'
    · rw [hid, log_compactWithSummary hcompact]
      exact List.prefix_append _ _
    · rw [log_compactWithSummary_ne hcompact hid]
  | _ => exact List.prefix_rfl

/-- An append takes the next number. -/
theorem execute_appendEntry (hn : t.db.Numbered) {e : NewEntry} {n : Nat}
    (h : (t.execute S (.appendEntry e) env).2 = .seq n) :
    n = (t.db.log e.sessionId).length + 1 ∧
      (t.execute S (.appendEntry e) env).1.db.log e.sessionId = t.db.log e.sessionId ++ [e.toEntry n] := by
  unfold Tables.execute at h ⊢
  split at h
  · cases h
  · next hok =>
    rw [if_neg hok]
    simp only [Tables.perform] at h ⊢
    split at h
    · next db seq happ =>
      obtain rfl : seq = n := by simpa using h
      exact ⟨appendEntry_seq hn happ, log_appendEntry happ⟩
    · cases h

/-- The entries a command writes into a session. -/
def wrote (id : String) (d : Done WriteCmd StoreEnv StoreReply) : Option NewEntry :=
  match d.cmd, d.reply with
  | .appendEntry e, .seq _ => if e.sessionId = id then some e else none
  | .compactWithSummary sessionId _ summaryText, .done =>
    if sessionId = id then some (summaryEntry sessionId summaryText) else none
  | _, _ => none

/-- What a command adds to the transcript of a session. -/
theorem log_execute (t : Tables) (d : Done WriteCmd StoreEnv StoreReply) (hr : (t.execute S d.cmd d.env).2 = d.reply)
    (id : String) : ∃ rows, (t.execute S d.cmd d.env).1.db.log id = t.db.log id ++ rows ∧
      Holds (wrote id d).toList rows := by
  obtain ⟨i, c, env, reply, time⟩ := d
  dsimp only at hr ⊢
  subst hr
  unfold Tables.execute
  split
  · refine ⟨[], by simp, ?_⟩
    have hnone : wrote id { id := i, cmd := c, env, reply := StoreReply.error, time } = none := by
      cases c <;> rfl
    rw [hnone]
    exact .nil
  · cases c with
    | ensureSession id' kind =>
      refine ⟨[], ?_, .nil⟩
      simp only [Tables.perform, Tables.ensureSession]
      split
      · simp
      · rw [log_ensureSession, List.append_nil]
    | appendEntry e =>
      simp only [Tables.perform]
      split
      · next db seq happ =>
        by_cases hid : e.sessionId = id
        · subst hid
          refine ⟨[e.toEntry seq], log_appendEntry happ, ?_⟩
          simp only [wrote, if_true]
          exact .cons ⟨seq, rfl⟩ .nil
        · refine ⟨[], by rw [log_appendEntry_ne happ (Ne.symm hid), List.append_nil], ?_⟩
          simp only [wrote, if_neg hid]
          exact .nil
      · exact ⟨[], by simp, .nil⟩
    | compactWithSummary sessionId upToSeq summaryText =>
      simp only [Tables.perform]
      split
      · next db hc =>
        by_cases hid : sessionId = id
        · subst hid
          refine ⟨_, log_compactWithSummary hc, ?_⟩
          simp only [wrote, if_true]
          exact .cons ⟨_, rfl⟩ .nil
        · refine ⟨[], by rw [log_compactWithSummary_ne hc (Ne.symm hid), List.append_nil], ?_⟩
          simp only [wrote, if_neg hid]
          exact .nil
      · exact ⟨[], by simp, .nil⟩
    | cronAdd cron =>
      simp only [Tables.perform]
      split <;> exact ⟨[], by simp, .nil⟩
    | intentAdd intent =>
      simp only [Tables.perform]
      split <;> exact ⟨[], by simp, .nil⟩
    | _ => exact ⟨[], by simp [Tables.perform, resetSession], .nil⟩

/-- The commands that move the start of a session's context. -/
def WriteCmd.movesReset (id : String) : WriteCmd → Bool
  | .resetSession id' | .compactWithSummary id' _ _ => id' = id
  | _ => false

theorem resetAt_execute {id : String} (hc : c.movesReset id = false) :
    (t.execute S c env).1.db.resetAt id = t.db.resetAt id := by
  unfold Tables.execute
  split
  · rfl
  · cases c with
    | ensureSession id' kind =>
      simp only [Tables.perform, Tables.ensureSession]
      split
      · rfl
      · exact resetAt_ensureSession _ _ _
    | appendEntry e =>
      simp only [Tables.perform]
      split
      · next happ => exact resetAt_appendEntry happ id
      · rfl
    | resetSession id' =>
      have hne : id ≠ id' := by simpa [WriteCmd.movesReset, eq_comm] using hc
      exact Db.resetAt_setResetAt_ne _ _ hne
    | compactWithSummary sessionId upToSeq summaryText =>
      have hne : id ≠ sessionId := by simpa [WriteCmd.movesReset, eq_comm] using hc
      simp only [Tables.perform]
      split
      · next hcompact => exact resetAt_compactWithSummary_ne hcompact hne
      · rfl
    | cronAdd cron =>
      simp only [Tables.perform]
      split <;> rfl
    | intentAdd intent =>
      simp only [Tables.perform]
      split <;> rfl
    | _ => rfl

/-- The two statements of a load, on the same tables. -/
theorem loadTranscript_selects (db : Db) (id : String) (maxEntries : Int) :
    loadTranscript db id maxEntries = selectEntries db id (db.resetAt id) maxEntries := rfl

theorem selectEntries_eq {db : Db} (h : db.Numbered) (id : String) (resetAt : Nat) (maxEntries : Int) :
    selectEntries db id resetAt maxEntries = lastN maxEntries ((db.log id).drop resetAt) := by
  have hpair := (h.pairwise_seq id).sublist (List.drop_sublist resetAt _)
  rw [selectEntries, h.filter_seq, insertionSort_desc hpair]
  exact sqlLimit_reverse maxEntries _

theorem execute_selectResetAt {id : String} {r : Nat} (h : (t.execute S (.selectResetAt id) env).2 = .seq r) :
    t.db.resetAt id = r ∧ (t.execute S (.selectResetAt id) env).1 = t := by
  unfold Tables.execute at h ⊢
  split at h
  · cases h
  · next hok =>
    rw [if_neg hok]
    exact ⟨StoreReply.seq.inj h, rfl⟩

theorem execute_selectEntries {id : String} {r : Nat} {m : Int} {rows : List Entry}
    (h : (t.execute S (.selectEntries id r m) env).2 = .entries rows) : selectEntries t.db id r m = rows := by
  unfold Tables.execute at h
  split at h
  · cases h
  · exact StoreReply.entries.inj h

end Commands

/-! ## A run -/

/-- SQLite over the sample engine, rows in table order. -/
def testSqlite : Sqlite testUnicode :=
  { engine := testEngine, memories := .table, intents := .table _, sessions := .table _ }

def quietEnv : StoreEnv := { nowMillis := 0, nowSecs := 0, fails := false }

/-- A command through the thread, from the call to its answer. -/
def byThread (i : Nat) (c : WriteCmd) : List (Act WriteCmd StoreEnv) :=
  [.call c, .check i, .send i, .serve quietEnv, .receive i]

/-- A statement of the pool. -/
def byPool (i : Nat) (c : WriteCmd) : List (Act WriteCmd StoreEnv) := [.call c, .read i quietEnv, .receive i]

/-- A compaction comes between the two statements of a load; then the thread ends in the middle of an append. -/
def sampleActs : List (Act WriteCmd StoreEnv) :=
  byThread 0 (.ensureSession "main" "main") ++ byThread 1 (.appendEntry (.text "main" .user "hi" 1)) ++
    byPool 2 (.selectResetAt "main") ++ byThread 3 (.compactWithSummary "main" 1 "greeting") ++
    byPool 4 (.selectEntries "main" 0 (-1)) ++
    [.call (.appendEntry (.text "main" .user "bye" 1)), .check 5, .send 5, .crash quietEnv true, .receive 5, .lower,
      .close]

theorem sampleActs_run : ∃ w, Steps.exec (step (store testSqlite)) (start .empty) sampleActs = some w ∧
    w.Told 1 (.appendEntry (.text "main" .user "hi" 1)) (.seq 1) ∧ w.Told 2 (.selectResetAt "main") (.seq 0) ∧
    w.Told 4 (.selectEntries "main" 0 (-1)) (.entries [NewEntry.toEntry (.text "main" .user "hi" 1) 1,
      (summaryEntry "main" "greeting").toEntry 2]) ∧ w.Precedes 2 4 :=
  ⟨_, rfl, ⟨_, rfl, rfl, rfl⟩, ⟨_, rfl, rfl, rfl⟩, ⟨_, rfl, rfl, rfl⟩, ⟨_, _, _, rfl, rfl, rfl, by decide⟩⟩

/-! ## Runs -/

section Runs

variable {S} {t t' : Tables} {es : List (Done WriteCmd StoreEnv StoreReply)} {acts : List (Act WriteCmd StoreEnv)}
  {w : World Tables WriteCmd StoreEnv StoreReply}

theorem legal_sound (h : Legal (store S) t es t') (ht : t.Sound U) : t'.Sound U :=
  h.keeps (P := Tables.Sound U) (fun _ c env hs => hs.changed (changed_execute _ c env)) ht

theorem legal_grows (h : Legal (store S) t es t') (id : String) : t.db.log id <+: t'.db.log id :=
  h.keeps (P := fun u => t.db.log id <+: u.db.log id)
    (fun u c env hu => hu.trans ((changed_execute u c env).grows id)) List.prefix_rfl

/-- The transcript of a session is what the commands wrote into it, in order. -/
theorem legal_wrote (h : Legal (store S) t es t') (id : String) :
    ∃ rows, t'.db.log id = t.db.log id ++ rows ∧ Holds (es.filterMap (wrote id)) rows := by
  induction es generalizing t with
  | nil =>
    obtain rfl : t = t' := h
    exact ⟨[], by simp, .nil⟩
  | cons d es ih =>
    obtain ⟨rows₁, hlog₁, hholds₁⟩ := log_execute t d h.1 id
    obtain ⟨rows₂, hlog₂, hholds₂⟩ := ih h.2
    refine ⟨rows₁ ++ rows₂, ?_, ?_⟩
    · rw [hlog₂, ← List.append_assoc, ← hlog₁]
      rfl
    · rw [List.filterMap_cons]
      cases hw : wrote id d with
      | none =>
        rw [hw] at hholds₁
        exact List.rel_append hholds₁ hholds₂
      | some e =>
        rw [hw] at hholds₁
        exact List.rel_append hholds₁ hholds₂

/-- An append that was done, and the tables before and after it. -/
theorem append_done {before after : List (Done WriteCmd StoreEnv StoreReply)} {d : Done WriteCmd StoreEnv StoreReply}
    (h : Legal (store S) .empty (before ++ d :: after) t) {e : NewEntry} {n : Nat} (hcmd : d.cmd = .appendEntry e)
    (hr : d.reply = .seq n) : ∃ u u' : Tables, Legal (store S) .empty before u ∧ Legal (store S) u' after t ∧
      n = (u.db.log e.sessionId).length + 1 ∧ u'.db.log e.sessionId = u.db.log e.sessionId ++ [e.toEntry n] := by
  obtain ⟨u, hbefore, hreply, hafter⟩ := legal_append.1 h
  rw [hcmd, hr] at hreply
  rw [hcmd] at hafter
  obtain ⟨hn, hlast⟩ := execute_appendEntry (legal_sound hbefore Tables.sound_empty).numbered hreply
  exact ⟨u, _, hbefore, hafter, hn, hlast⟩

/-- The append that was done first has the smaller number. -/
theorem number_lt (h : Linearized (store S) .empty w) {d d' : Done WriteCmd StoreEnv StoreReply} (hd : d ∈ w.log)
    (hd' : d' ∈ w.log) (hlt : d.time < d'.time) {e e' : NewEntry} {n n' : Nat} (hcmd : d.cmd = .appendEntry e)
    (hr : d.reply = .seq n) (hcmd' : d'.cmd = .appendEntry e') (hr' : d'.reply = .seq n')
    (hsession : e.sessionId = e'.sessionId) : n < n' := by
  obtain ⟨before, between, after, hlog⟩ := h.split hd hd' hlt
  have hlegal := h.legal
  rw [hlog, ← List.cons_append, ← List.append_assoc] at hlegal
  obtain ⟨v, -, hfront, -, hn', -⟩ := append_done hlegal hcmd' hr'
  obtain ⟨u, u', -, hbetween, hn, hlast⟩ := append_done hfront hcmd hr
  have hlen := (legal_grows hbetween e.sessionId).length_le
  rw [hlast, List.length_append] at hlen
  rw [← hsession] at hn'
  simp only [List.length_singleton] at hlen
  omega

/-- Whoever calls, goes away or reads beside the thread, and however the thread ends: as if the commands were
done one after the other, each between its call and its answer, on tables that are sound. -/
theorem store_linearized (h : Steps.exec (step (store S)) (start .empty) acts = some w) :
    Linearized (store S) .empty w ∧
      ∀ (before after : List (Done WriteCmd StoreEnv StoreReply)) (t : Tables), w.log = before ++ after →
        Legal (store S) .empty before t → t.Sound U :=
  ⟨linearized h, fun _ _ _ _ hlegal => legal_sound hlegal Tables.sound_empty⟩

theorem store_linearized_sample : ∃ w, Steps.exec (step (store testSqlite)) (start .empty) sampleActs = some w ∧
    Linearized (store testSqlite) .empty w := by
  obtain ⟨w, hw, -⟩ := sampleActs_run
  exact ⟨w, hw, (store_linearized hw).1⟩

/-- An append that was acknowledged with a number is at that place of its session's transcript in every store the
run goes on to; no two appends to a session are told the same number, and the later one the larger; and a
transcript holds what the commands wrote and nothing else. -/
theorem acknowledged_kept (h : Steps.exec (step (store S)) (start .empty) acts = some w) :
    (∀ i e n, w.Told i (.appendEntry e) (.seq n) →
      1 ≤ n ∧ (w.state.db.log e.sessionId)[n - 1]? = some (e.toEntry n)) ∧
    (∀ i j e e' n, w.Told i (.appendEntry e) (.seq n) → w.Told j (.appendEntry e') (.seq n) →
      e.sessionId = e'.sessionId → i = j) ∧
    (∀ i j e e' n n', w.Told i (.appendEntry e) (.seq n) → w.Told j (.appendEntry e') (.seq n') →
      e.sessionId = e'.sessionId → w.Precedes i j → n < n') ∧
    ∀ id, Holds (w.log.filterMap (wrote id)) (w.state.db.log id) := by
  have hlin := linearized h
  refine ⟨fun i e n hi => ?_, fun i j e e' n hi hj hsession => ?_, fun i j e e' n n' hi hj hsession hp => ?_, fun id => ?_⟩
  · obtain ⟨d, hd, -, hcmd, hr⟩ := hlin.told hi
    obtain ⟨before, after, hlog⟩ := List.append_of_mem hd
    obtain ⟨u, u', -, hafter, hn, hlast⟩ := append_done (hlog ▸ hlin.legal) hcmd hr
    obtain ⟨rows, hgrown⟩ := legal_grows hafter e.sessionId
    refine ⟨by omega, ?_⟩
    rw [← hgrown, hlast, hn]
    simp
  · obtain ⟨d, hd, hid, hcmd, hr⟩ := hlin.told hi
    obtain ⟨d', hd', hid', hcmd', hr'⟩ := hlin.told hj
    by_contra hne
    rcases hlin.total hd hd' (by rwa [hid, hid']) with hlt | hlt
    · exact Nat.lt_irrefl n (number_lt hlin hd hd' hlt hcmd hr hcmd' hr' hsession)
    · exact Nat.lt_irrefl n (number_lt hlin hd' hd hlt hcmd' hr' hcmd hr hsession.symm)
  · obtain ⟨d, hd, hid, hcmd, hr⟩ := hlin.told hi
    obtain ⟨d', hd', hid', hcmd', hr'⟩ := hlin.told hj
    have hlt := hlin.order hd hd' (by rwa [hid, hid'])
    exact number_lt hlin hd hd' hlt hcmd hr hcmd' hr' hsession
  · obtain ⟨rows, hlog, hholds⟩ := legal_wrote hlin.legal id
    rw [hlog]
    exact hholds

theorem acknowledged_kept_sample : ∃ w, Steps.exec (step (store testSqlite)) (start .empty) sampleActs = some w ∧
    (w.state.db.log "main")[0]? = some (NewEntry.toEntry (.text "main" .user "hi" 1) 1) := by
  obtain ⟨w, hw, htold, -⟩ := sampleActs_run
  exact ⟨w, hw, ((acknowledged_kept hw).1 _ _ _ htold).2⟩

theorem legal_resetAt {id : String} (h : Legal (store S) t es t') (hes : ∀ d ∈ es, d.cmd.movesReset id = false) :
    t'.db.resetAt id = t.db.resetAt id := by
  induction es generalizing t with
  | nil =>
    obtain rfl : t = t' := h
    rfl
  | cons d es ih =>
    rw [ih h.2 fun d' hd' => hes d' (List.mem_cons_of_mem d hd')]
    exact resetAt_execute (hes d List.mem_cons_self)

/-- A load beside the thread, in two statements: it shows the end of a transcript as it was between the two, with
every append that was acknowledged before it; and if nothing moved `reset_at` meanwhile, it is a load of the
store at one moment. -/
theorem load_beside (h : Steps.exec (step (store S)) (start .empty) acts = some w) {i j r : Nat} {id : String} {m : Int}
    {rows : List Entry} (hi : w.Told i (.selectResetAt id) (.seq r))
    (hj : w.Told j (.selectEntries id r m) (.entries rows)) (hp : w.Precedes i j) :
    ∃ before after t, w.log = before ++ after ∧ Legal (store S) .empty before t ∧
      rows = lastN m ((t.db.log id).drop r) ∧
      (∀ k e n, w.Told k (.appendEntry e) (.seq n) → e.sessionId = id → w.Precedes k j →
        (t.db.log id)[n - 1]? = some (e.toEntry n)) ∧
      ((∀ d ∈ before, (∀ dᵢ ∈ w.log, dᵢ.id = i → dᵢ.time < d.time) → d.cmd.movesReset id = false) →
        rows = loadTranscript t.db id m) := by
  have hlin := linearized h
  obtain ⟨dᵢ, hdᵢ, hidᵢ, hcmdᵢ, hrᵢ⟩ := hlin.told hi
  obtain ⟨dⱼ, hdⱼ, hidⱼ, hcmdⱼ, hrⱼ⟩ := hlin.told hj
  obtain ⟨front, between, after, hlog⟩ := hlin.split hdᵢ hdⱼ (hlin.order hdᵢ hdⱼ (by rwa [hidᵢ, hidⱼ]))
  have hlog' : w.log = (front ++ dᵢ :: between) ++ dⱼ :: after := by simp [hlog]
  obtain ⟨t, hbefore, hreplyⱼ, hafter⟩ := legal_append.1 (hlog' ▸ hlin.legal)
  have ht := legal_sound hbefore Tables.sound_empty
  rw [hcmdⱼ, hrⱼ] at hreplyⱼ
  have hrows : selectEntries t.db id r m = rows := execute_selectEntries hreplyⱼ
  refine ⟨front ++ dᵢ :: between, dⱼ :: after, t, hlog', hbefore, ?_, ?_, ?_⟩
  · rw [← hrows, selectEntries_eq ht.numbered]
  · intro k e n hk hsession hkj
    obtain ⟨d, hd, hid, hcmd, hr⟩ := hlin.told hk
    have hlt := hlin.order hd hdⱼ (by rwa [hid, hidⱼ])
    have hin : d ∈ front ++ dᵢ :: between := by
      have hrising := hlin.rising
      rw [hlog'] at hd hrising
      refine (List.mem_append.1 hd).resolve_right fun hd => ?_
      rcases List.mem_cons.1 hd with rfl | hd
      · exact Nat.lt_irrefl _ hlt
      · have := List.rel_of_pairwise_cons (List.pairwise_append.1 hrising).2.1 hd
        omega
    obtain ⟨es, fs, hsplit⟩ := List.append_of_mem hin
    obtain ⟨u, u', -, hrest, hn, hlast⟩ := append_done (hsplit ▸ hbefore) hcmd hr
    obtain ⟨more, hgrown⟩ := legal_grows hrest e.sessionId
    rw [← hsession, ← hgrown, hlast, hn]
    simp
  · intro hquiet
    obtain ⟨u, -, hreplyᵢ, hbetween⟩ := legal_append.1 hbefore
    rw [hcmdᵢ, hrᵢ] at hreplyᵢ
    rw [hcmdᵢ] at hbetween
    obtain ⟨hreset, hsame⟩ := execute_selectResetAt hreplyᵢ
    have hkept : t.db.resetAt id = u.db.resetAt id := by
      refine (legal_resetAt hbetween ?_).trans (congrArg (fun v : Tables => v.db.resetAt id) hsame)
      intro d hd
      refine hquiet d (by simp [hd]) fun d' hd' hid' => ?_
      obtain rfl := hlin.eq_of_id hd' hdᵢ (hid'.trans hidᵢ.symm)
      have hrising := hlin.rising
      rw [hlog] at hrising
      exact List.rel_of_pairwise_cons (List.pairwise_append.1 hrising).2.1 (by simp [hd])
    rw [loadTranscript_selects, hkept, hreset, hrows]

/-- A compaction between the two statements: the load shows the entry and its summary. -/
theorem load_beside_sample : ∃ w before after t,
    Steps.exec (step (store testSqlite)) (start .empty) sampleActs = some w ∧ w.log = before ++ after ∧
      Legal (store testSqlite) .empty before t ∧
      [NewEntry.toEntry (.text "main" .user "hi" 1) 1, (summaryEntry "main" "greeting").toEntry 2] =
        lastN (-1) ((t.db.log "main").drop 0) := by
  obtain ⟨w, hw, -, hreset, hentries, hp⟩ := sampleActs_run
  obtain ⟨before, after, t, hlog, hlegal, hrows, -⟩ := load_beside hw hreset hentries hp
  exact ⟨w, before, after, t, hw, hlog, hlegal, hrows⟩

end Runs

end OhMyClaw
