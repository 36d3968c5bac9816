import OhMyClaw.Lib.Steps
import OhMyClaw.Server.Summarize

/-!
# Compaction and reset beside a run

Three kinds of task write to the transcript of one session: the run that is active, at most one
compaction, and any number of resets.  A compaction reads the entries, offers the older ones to
the memory, has them summarised and writes the summary; a reset reads the entries, offers them
to the memory and moves the start of the context to the end.  Each of these is a point where the
others may come in.

The run persists its entries one by one; the call of a tool and its result are two of them.

    Inv.step            what every task knows of the entries it has read
    change_of_step      what a step does to the transcript
-/

namespace OhMyClaw

namespace Compact

structure Cfg where
  session : String
  history : SessionConfig
deriving DecidableEq, Repr

/-- The bounds the tests of the source use. -/
def testCfg : Cfg :=
  { session := "main", history := { maxHistoryEntries := 200, historyTokenBudget := 8000 } }

/-- Where the compaction stands; the guard admits one at a time. -/
inductive CompactPc where
  | idle
  /-- The transcript is read; `older` is to be compacted. -/
  | loaded (older : List Entry)
  /-- `older` was offered to the memory. -/
  | flushed (older : List Entry)
  /-- The summariser is at work on `older`. -/
  | asked (older : List Entry)
  | writing (older : List Entry) (summary : String)
deriving DecidableEq, Repr

/-- Where a reset stands.  `read` is, for the record, how many entries the transcript had when
it was read. -/
inductive ResetPc where
  | asked
  | loaded (entries : List Entry) (read : Nat)
  /-- `handed` was offered to the memory; it is empty if nothing was read. -/
  | ready (handed : List Entry) (read : Option Nat)
  | done
deriving DecidableEq, Repr

structure Sys where
  db : Db
  compact : CompactPc
  /-- The resets asked for so far; a reset is known by its place. -/
  resets : List ResetPc
  /-- The active run has persisted this call, and not yet its result. -/
  opened : Option (Nat × ToolCallSpec)
  /-- History: the numbers of the calls and results persisted. -/
  pairs : List (Nat × Nat)
  /-- History: the numbers of the entries offered to the memory. -/
  offered : List Nat
  /-- History: the numbers of the entries shown to the summariser. -/
  summarised : List Nat
deriving DecidableEq

/-- The numbers of some entries. -/
def seqs (entries : List Entry) : List Nat := entries.map (·.seq)

/-- A new session. -/
def Sys.start (cfg : Cfg) : Sys :=
  { db := ensureSession .empty cfg.session, compact := .idle, resets := [], opened := none
    pairs := [], offered := [], summarised := [] }

inductive Act where
  /-- The run persists an entry other than a call or its result. -/
  | append (e : NewEntry)
  | dispatch (content : String) (call : ToolCallSpec)
  | result (content : String)
  /-- The run ends with a call open. -/
  | giveUp
  | compactLoad (loads : Bool)
  | compactFlush
  | compactAsk
  | compactAnswer (turn : ProviderTurn)
  | compactWrite (accepts : Bool)
  | resetStart
  | resetLoad (k : Nat) (loads : Bool)
  | resetFlush (k : Nat)
  | resetWrite (k : Nat) (accepts : Bool)

def dispatchEntry (cfg : Cfg) (content : String) (call : ToolCallSpec) : NewEntry :=
  { sessionId := cfg.session, role := .assistant, content, tokensEst := estimateTokens content
    toolCalls := some [call], toolCallId := none }

def resultEntry (cfg : Cfg) (content : String) (call : ToolCallSpec) : NewEntry :=
  { sessionId := cfg.session, role := .tool, content, tokensEst := estimateTokens content
    toolCalls := none, toolCallId := some call.id }

def Sys.load (cfg : Cfg) (s : Sys) : List Entry :=
  loadTranscript s.db cfg.session cfg.history.maxHistoryEntries

def compactLoad (cfg : Cfg) (s : Sys) (loads : Bool) : Option Sys :=
  match s.compact with
  | .idle =>
    if loads then
      match olderEntries (s.load cfg) with
      | some older => some { s with compact := .loaded older }
      | none => some s
    else some s
  | _ => none

def compactFlush (s : Sys) : Option Sys :=
  match s.compact with
  | .loaded older =>
    some { s with compact := .flushed older, offered := s.offered ++ seqs older }
  | _ => none

def compactAsk (s : Sys) : Option Sys :=
  match s.compact with
  | .flushed older =>
    some { s with compact := .asked older, summarised := s.summarised ++ seqs older }
  | _ => none

def compactAnswer (s : Sys) (turn : ProviderTurn) : Option Sys :=
  match s.compact with
  | .asked older =>
    match summarize (older.map summaryMessage) turn with
    | some summary => some { s with compact := .writing older summary }
    | none => some { s with compact := .idle }
  | _ => none

def compactWrite (cfg : Cfg) (s : Sys) (accepts : Bool) : Option Sys :=
  match s.compact with
  | .writing older summary =>
    if accepts then
      match compactWithSummary s.db cfg.session (upToSeq older) summary with
      | some db => some { s with db, compact := .idle }
      | none => some { s with compact := .idle }
    else some { s with compact := .idle }
  | _ => none

def Sys.setReset (s : Sys) (k : Nat) (pc : ResetPc) : Sys :=
  { s with resets := s.resets.set k pc }

def resetLoad (cfg : Cfg) (s : Sys) (k : Nat) (loads : Bool) : Option Sys :=
  match s.resets[k]? with
  | some .asked =>
    let read := (s.db.log cfg.session).length
    if loads then
      let entries := s.load cfg
      if entries.isEmpty then some (s.setReset k (.ready [] (some read)))
      else some (s.setReset k (.loaded entries read))
    else some (s.setReset k (.ready [] none))
  | _ => none

def resetFlush (s : Sys) (k : Nat) : Option Sys :=
  match s.resets[k]? with
  | some (.loaded entries read) =>
    some ({ s with offered := s.offered ++ seqs entries }.setReset k
      (.ready entries (some read)))
  | _ => none

def resetWrite (cfg : Cfg) (s : Sys) (k : Nat) (accepts : Bool) : Option Sys :=
  match s.resets[k]? with
  | some (.ready _ _) =>
    if accepts then some ({ s with db := resetSession s.db cfg.session }.setReset k .done)
    else some (s.setReset k .done)
  | _ => none

def step (cfg : Cfg) (s : Sys) : Act → Option Sys
  | .append e =>
    if e.sessionId = cfg.session ∧ s.opened = none then
      (appendEntry s.db e).map fun r => { s with db := r.1 }
    else none
  | .dispatch content call =>
    if s.opened = none then
      (appendEntry s.db (dispatchEntry cfg content call)).map fun r =>
        { s with db := r.1, opened := some (r.2, call) }
    else none
  | .result content =>
    match s.opened with
    | some (p, call) =>
      if content = "" then some { s with opened := none }
      else
        (appendEntry s.db (resultEntry cfg content call)).map fun r =>
          { s with db := r.1, opened := none, pairs := s.pairs ++ [(p, r.2)] }
    | none => none
  | .giveUp => some { s with opened := none }
  | .compactLoad loads => compactLoad cfg s loads
  | .compactFlush => compactFlush s
  | .compactAsk => compactAsk s
  | .compactAnswer turn => compactAnswer s turn
  | .compactWrite accepts => compactWrite cfg s accepts
  | .resetStart => some { s with resets := s.resets ++ [.asked] }
  | .resetLoad k loads => resetLoad cfg s k loads
  | .resetFlush k => resetFlush s k
  | .resetWrite k accepts => resetWrite cfg s k accepts

/-! ## Reading -/

/-- The length of the transcript. -/
def Sys.length (cfg : Cfg) (s : Sys) : Nat := (s.db.log cfg.session).length

def Sys.resetAt (cfg : Cfg) (s : Sys) : Nat := s.db.resetAt cfg.session

theorem Sys.resetAt_of_db {cfg : Cfg} {s t : Sys} (h : t.db = s.db) :
    t.resetAt cfg = s.resetAt cfg := by
  rw [Sys.resetAt, Sys.resetAt, h]

/-- The entries after number `lo` were read when the transcript had `n` entries: all behind the
start `r` of the context, or the last ones the limit admits.  `r` may have moved on since. -/
structure Window (limit : Int) (r n lo : Nat) : Prop where
  fits : 0 ≤ limit → n ≤ lo + limit.toNat
  start : lo ≤ r ∨ 0 ≤ limit ∧ lo + limit.toNat = n

theorem Window.mono {limit : Int} {r r' n lo : Nat} (h : Window limit r n lo) (hr : r ≤ r') :
    Window limit r' n lo :=
  ⟨h.fits, h.start.imp_left fun hlo => hlo.trans hr⟩

/-- The limit admits all the entries behind `r`. -/
def Admits (limit : Int) (r n : Nat) : Prop := limit < 0 ∨ (n : Int) ≤ r + limit

instance (limit : Int) (r n : Nat) : Decidable (Admits limit r n) := inferInstanceAs (Decidable (_ ∨ _))

theorem Window.le_iff {limit : Int} {r n lo : Nat} (h : Window limit r n lo) :
    lo ≤ r ↔ Admits limit r n := by
  obtain ⟨hfits, hstart⟩ := h
  unfold Admits
  omega

theorem map_lastN {α β : Type*} (f : α → β) (n : Int) (xs : List α) :
    (lastN n xs).map f = lastN n (xs.map f) := by
  unfold lastN
  split
  · rfl
  · rw [List.map_drop, List.length_map]

/-- What is read are the entries of a window up to the end of the transcript. -/
theorem seqs_loadTranscript {db : Db} (h : db.Numbered) (id : String) (limit : Int) :
    ∃ lo, seqs (loadTranscript db id limit) = List.range' (lo + 1) ((db.log id).length - lo) ∧
      Window limit (db.resetAt id) (db.log id).length lo := by
  have hdrop : seqs ((db.log id).drop (db.resetAt id)) =
      List.range' (db.resetAt id + 1) ((db.log id).length - db.resetAt id) := by
    rw [seqs, List.map_drop, h id, List.drop_range']
    congr 1
    omega
  rw [loadTranscript_eq h, seqs, map_lastN]
  show ∃ lo, lastN limit (seqs ((db.log id).drop (db.resetAt id))) = _ ∧ _
  rw [hdrop, lastN]
  split
  · next hneg => exact ⟨db.resetAt id, rfl, by omega, .inl (Nat.le_refl _)⟩
  · next hpos =>
    rw [List.length_range', List.drop_range']
    refine ⟨db.resetAt id + ((db.log id).length - db.resetAt id - limit.toNat), ?_, ?_, ?_⟩
    · congr 1
      · omega
      · omega
    · omega
    · omega

/-! ## The invariant -/

/-- `handed` was read when the transcript had `read` entries. -/
def ReadAt (cfg : Cfg) (s : Sys) (handed : List Entry) (read : Nat) : Prop :=
  ∃ lo, seqs handed = List.range' (lo + 1) (read - lo) ∧ read ≤ s.length cfg ∧
    Window cfg.history.maxHistoryEntries (s.resetAt cfg) read lo

/-- `older` are the entries of a read but for the last ones. -/
def OlderOk (cfg : Cfg) (s : Sys) (older : List Entry) : Prop :=
  ∃ lo, seqs older = List.range' (lo + 1) (upToSeq older - lo) ∧
    upToSeq older + CompactCfg.default.keepRecent ≤ s.length cfg ∧
    Window cfg.history.maxHistoryEntries (s.resetAt cfg)
      (upToSeq older + CompactCfg.default.keepRecent) lo

/-- What the compaction knows by where it stands. -/
def CompactOk (cfg : Cfg) (s : Sys) : CompactPc → Prop
  | .idle => True
  | .loaded older => OlderOk cfg s older
  | .flushed older => OlderOk cfg s older ∧ ∀ k ∈ seqs older, k ∈ s.offered
  | .asked older | .writing older _ =>
    OlderOk cfg s older ∧ (∀ k ∈ seqs older, k ∈ s.offered) ∧ ∀ k ∈ seqs older, k ∈ s.summarised

/-- What a reset knows by where it stands. -/
def ResetOk (cfg : Cfg) (s : Sys) : ResetPc → Prop
  | .asked | .done => True
  | .loaded entries read => ReadAt cfg s entries read
  | .ready handed (some read) => ReadAt cfg s handed read ∧ ∀ k ∈ seqs handed, k ∈ s.offered
  | .ready handed none => handed = []

structure Inv (cfg : Cfg) (s : Sys) : Prop where
  numbered : s.db.Numbered
  session : s.db.hasSession cfg.session = true
  reset_le : s.resetAt cfg ≤ s.length cfg
  compact : CompactOk cfg s s.compact
  resets : ∀ pc ∈ s.resets, ResetOk cfg s pc

/-- Transcript, context start and histories only grow. -/
structure Grows (cfg : Cfg) (s s' : Sys) : Prop where
  length : s.length cfg ≤ s'.length cfg
  resetAt : s.resetAt cfg ≤ s'.resetAt cfg
  offered : ∀ k ∈ s.offered, k ∈ s'.offered
  summarised : ∀ k ∈ s.summarised, k ∈ s'.summarised

theorem Grows.of_db {cfg : Cfg} {s s' : Sys} (hdb : s'.db = s.db)
    (ho : ∀ k ∈ s.offered, k ∈ s'.offered) (hs : ∀ k ∈ s.summarised, k ∈ s'.summarised) :
    Grows cfg s s' := by
  refine ⟨?_, ?_, ho, hs⟩
  · simp only [Sys.length, hdb, Nat.le_refl]
  · simp only [Sys.resetAt, hdb, Nat.le_refl]

theorem ReadAt.mono {cfg : Cfg} {s s' : Sys} (hg : Grows cfg s s') {handed : List Entry} {read : Nat}
    (h : ReadAt cfg s handed read) : ReadAt cfg s' handed read := by
  obtain ⟨lo, hseqs, hle, hw⟩ := h
  exact ⟨lo, hseqs, hle.trans hg.length, hw.mono hg.resetAt⟩

theorem OlderOk.mono {cfg : Cfg} {s s' : Sys} (hg : Grows cfg s s') {older : List Entry}
    (h : OlderOk cfg s older) : OlderOk cfg s' older := by
  obtain ⟨lo, hseqs, hle, hw⟩ := h
  exact ⟨lo, hseqs, hle.trans hg.length, hw.mono hg.resetAt⟩

theorem CompactOk.mono {cfg : Cfg} {s s' : Sys} (hg : Grows cfg s s') {pc : CompactPc}
    (h : CompactOk cfg s pc) : CompactOk cfg s' pc := by
  cases pc with
  | idle => trivial
  | loaded older => exact OlderOk.mono hg h
  | flushed older => exact ⟨h.1.mono hg, fun k hk => hg.offered k (h.2 k hk)⟩
  | asked older =>
    exact ⟨h.1.mono hg, fun k hk => hg.offered k (h.2.1 k hk),
      fun k hk => hg.summarised k (h.2.2 k hk)⟩
  | writing older summary =>
    exact ⟨h.1.mono hg, fun k hk => hg.offered k (h.2.1 k hk),
      fun k hk => hg.summarised k (h.2.2 k hk)⟩

theorem ResetOk.mono {cfg : Cfg} {s s' : Sys} (hg : Grows cfg s s') {pc : ResetPc}
    (h : ResetOk cfg s pc) : ResetOk cfg s' pc := by
  cases pc with
  | asked => trivial
  | done => trivial
  | loaded entries read => exact ReadAt.mono hg h
  | ready handed read =>
    cases read with
    | none => exact h
    | some read => exact ⟨h.1.mono hg, fun k hk => hg.offered k (h.2 k hk)⟩

theorem Inv.of_grows {cfg : Cfg} {s s' : Sys} (h : Inv cfg s) (hg : Grows cfg s s')
    (hn : s'.db.Numbered) (hs : s'.db.hasSession cfg.session = true)
    (hle : s'.resetAt cfg ≤ s'.length cfg) (hc : CompactOk cfg s' s'.compact)
    (hr : ∀ pc ∈ s'.resets, pc ∈ s.resets ∨ ResetOk cfg s' pc) : Inv cfg s' :=
  ⟨hn, hs, hle, hc, fun pc hpc => (hr pc hpc).elim (fun h' => (h.resets pc h').mono hg) id⟩

/-- A step that leaves the store alone. -/
theorem Inv.of_db {cfg : Cfg} {s s' : Sys} (h : Inv cfg s) (hdb : s'.db = s.db)
    (ho : ∀ k ∈ s.offered, k ∈ s'.offered) (hs : ∀ k ∈ s.summarised, k ∈ s'.summarised)
    (hc : CompactOk cfg s' s'.compact)
    (hr : ∀ pc ∈ s'.resets, pc ∈ s.resets ∨ ResetOk cfg s' pc) : Inv cfg s' := by
  refine h.of_grows (.of_db hdb ho hs) (hdb ▸ h.numbered) (hdb ▸ h.session) ?_ hc hr
  simp only [Sys.resetAt, Sys.length, hdb]
  exact h.reset_le

/-- A reset moves the start of the context to the end of the transcript. -/
theorem Inv.resetAt_of_reset {cfg : Cfg} {s t : Sys} (h : Inv cfg s)
    (hdb : t.db = resetSession s.db cfg.session) : t.resetAt cfg = s.length cfg := by
  rw [Sys.resetAt, hdb]
  exact resetAt_resetSession h.numbered h.session

/-! ## Every step keeps it -/

theorem log_start (cfg : Cfg) (id : String) : (Sys.start cfg).db.log id = [] := by
  simp [Sys.start, ensureSession, Db.hasSession, Db.empty, Db.log]

theorem resetAt_start (cfg : Cfg) : (Sys.start cfg).resetAt cfg = 0 := by
  simp [Sys.resetAt, Sys.start, ensureSession, Db.hasSession, Db.empty, Db.resetAt]

theorem inv_start (cfg : Cfg) : Inv cfg (.start cfg) := by
  refine ⟨?_, ?_, ?_, trivial, by simp [Sys.start]⟩
  · intro id
    rw [log_start]
    rfl
  · simp [Sys.start, ensureSession, Db.hasSession, Db.empty]
  · rw [resetAt_start]
    exact Nat.zero_le _

/-- An entry is appended to the session. -/
theorem grows_append {cfg : Cfg} {s s' : Sys} {e : NewEntry} {seq : Nat}
    (happ : appendEntry s.db e = some (s'.db, seq)) (he : e.sessionId = cfg.session)
    (ho : s'.offered = s.offered) (hs : s'.summarised = s.summarised) : Grows cfg s s' := by
  have hlog := log_appendEntry happ
  rw [he] at hlog
  refine ⟨?_, ?_, by simp [ho], by simp [hs]⟩
  · rw [Sys.length, Sys.length, hlog, List.length_append]
    exact Nat.le_add_right _ _
  · rw [Sys.resetAt, Sys.resetAt, resetAt_appendEntry happ]

theorem Inv.append {cfg : Cfg} {s s' : Sys} {e : NewEntry} {seq : Nat} (h : Inv cfg s)
    (happ : appendEntry s.db e = some (s'.db, seq)) (he : e.sessionId = cfg.session)
    (hc : s'.compact = s.compact) (hr : s'.resets = s.resets) (ho : s'.offered = s.offered)
    (hs : s'.summarised = s.summarised) : Inv cfg s' := by
  have hg := grows_append happ he ho hs
  refine h.of_grows hg (numbered_appendEntry h.numbered happ) ?_ ?_ ?_ ?_
  · rw [hasSession_appendEntry happ]
    exact h.session
  · have hreset : s'.resetAt cfg = s.resetAt cfg := by
      rw [Sys.resetAt, Sys.resetAt, resetAt_appendEntry happ]
    rw [hreset]
    exact h.reset_le.trans hg.length
  · rw [hc]
    exact h.compact.mono hg
  · intro pc hpc
    exact .inl (hr ▸ hpc)

/-- The entries to compact are those read but for the last ones. -/
theorem olderOk_of_load {cfg : Cfg} {s : Sys} (h : Inv cfg s) {older : List Entry}
    (holder : olderEntries (s.load cfg) = some older) : OlderOk cfg s older := by
  obtain ⟨hlen, rfl⟩ := olderEntries_eq_some.1 holder
  obtain ⟨lo, hseqs, hw⟩ := seqs_loadTranscript h.numbered cfg.session cfg.history.maxHistoryEntries
  change seqs (s.load cfg) = List.range' (lo + 1) (s.length cfg - lo) at hseqs
  have hcount : (s.load cfg).length = s.length cfg - lo := by
    simpa [seqs] using congrArg List.length hseqs
  generalize hk : CompactCfg.default.keepRecent = keep at hlen ⊢
  have holder : seqs ((s.load cfg).take ((s.load cfg).length - keep)) =
      List.range' (lo + 1) (s.length cfg - keep - lo) := by
    rw [seqs, List.map_take]
    show (seqs (s.load cfg)).take _ = _
    rw [hseqs, List.take_range'_of_length_ge (by omega), hcount]
    congr 1
    omega
  have hup : upToSeq ((s.load cfg).take ((s.load cfg).length - keep)) = s.length cfg - keep := by
    have hlast := congrArg List.getLast? holder
    rw [seqs, List.getLast?_map, List.getLast?_range'] at hlast
    unfold upToSeq
    split
    · next e he =>
      rw [he, Option.map_some, if_neg (by omega), Option.some_inj] at hlast
      omega
    · next he =>
      rw [he, if_neg (by omega)] at hlast
      cases hlast
  refine ⟨lo, ?_, ?_, ?_⟩
  · rw [hup, holder]
  · omega
  · rw [hup, hk, Nat.sub_add_cancel (by omega)]
    exact hw

theorem inv_compactLoad {cfg : Cfg} {s t : Sys} {loads : Bool} (h : Inv cfg s)
    (hs : compactLoad cfg s loads = some t) : Inv cfg t := by
  unfold compactLoad at hs
  split at hs
  · split at hs
    · split at hs
      · next older holder =>
        cases hs
        exact h.of_db rfl (fun _ => id) (fun _ => id) (olderOk_of_load h holder) fun _ => .inl
      · cases hs
        exact h
    · cases hs
      exact h
  · cases hs

theorem inv_compactFlush {cfg : Cfg} {s t : Sys} (h : Inv cfg s) (hs : compactFlush s = some t) :
    Inv cfg t := by
  unfold compactFlush at hs
  split at hs
  · next older hpc =>
    cases hs
    have hok := h.compact
    rw [hpc] at hok
    exact h.of_db rfl (fun _ => List.mem_append_left _) (fun _ => id)
      ⟨hok, fun _ => List.mem_append_right _⟩ fun _ => .inl
  · cases hs

theorem inv_compactAsk {cfg : Cfg} {s t : Sys} (h : Inv cfg s) (hs : compactAsk s = some t) :
    Inv cfg t := by
  unfold compactAsk at hs
  split at hs
  · next older hpc =>
    cases hs
    have hok := h.compact
    rw [hpc] at hok
    exact h.of_db rfl (fun _ => id) (fun _ => List.mem_append_left _)
      ⟨hok.1, hok.2, fun _ => List.mem_append_right _⟩ fun _ => .inl
  · cases hs

theorem inv_compactAnswer {cfg : Cfg} {s t : Sys} {turn : ProviderTurn} (h : Inv cfg s)
    (hs : compactAnswer s turn = some t) : Inv cfg t := by
  unfold compactAnswer at hs
  split at hs
  · next older hpc =>
    have hok := h.compact
    rw [hpc] at hok
    split at hs
    · cases hs
      exact h.of_db rfl (fun _ => id) (fun _ => id) hok fun _ => .inl
    · cases hs
      exact h.of_db rfl (fun _ => id) (fun _ => id) trivial fun _ => .inl
  · cases hs

/-- What the write of a compaction does to the session. -/
structure Written (cfg : Cfg) (s t : Sys) (older : List Entry) : Prop where
  numbered : t.db.Numbered
  session : t.db.hasSession cfg.session = true
  length : t.length cfg = s.length cfg + 1
  resetAt : t.resetAt cfg = max (s.resetAt cfg) (upToSeq older)
  compact : t.compact = .idle
  resets : t.resets = s.resets
  offered : t.offered = s.offered
  summarised : t.summarised = s.summarised

theorem written_of_compact {cfg : Cfg} {s : Sys} {older : List Entry} {summary : String} {db : Db}
    (h : Inv cfg s) (hw : compactWithSummary s.db cfg.session (upToSeq older) summary = some db) :
    Written cfg s { s with db, compact := .idle } older := by
  refine ⟨numbered_compactWithSummary h.numbered hw, hasSession_compactWithSummary hw, ?_,
    resetAt_compactWithSummary hw, rfl, rfl, rfl, rfl⟩
  simp only [Sys.length, log_compactWithSummary hw, List.length_append, List.length_singleton]

theorem Written.grows {cfg : Cfg} {s t : Sys} {older : List Entry} (h : Written cfg s t older) :
    Grows cfg s t := by
  refine ⟨?_, ?_, by simp [h.offered], by simp [h.summarised]⟩
  · rw [h.length]
    exact Nat.le_succ _
  · rw [h.resetAt]
    exact Nat.le_max_left _ _

theorem inv_compactWrite {cfg : Cfg} {s t : Sys} {accepts : Bool} (h : Inv cfg s)
    (hs : compactWrite cfg s accepts = some t) : Inv cfg t := by
  unfold compactWrite at hs
  split at hs
  · next older summary hpc =>
    have hok := h.compact
    rw [hpc] at hok
    obtain ⟨lo, -, hle, -⟩ := hok.1
    split at hs
    · split at hs
      · next db hw =>
        cases hs
        have hwr := written_of_compact h hw
        refine h.of_grows hwr.grows hwr.numbered hwr.session ?_ trivial fun _ => .inl
        rw [hwr.length, hwr.resetAt]
        have hr := h.reset_le
        omega
      · cases hs
        exact h.of_db rfl (fun _ => id) (fun _ => id) trivial fun _ => .inl
    · cases hs
      exact h.of_db rfl (fun _ => id) (fun _ => id) trivial fun _ => .inl
  · cases hs

theorem mem_setReset {s : Sys} {k : Nat} {pc pc' : ResetPc} (h : pc' ∈ (s.setReset k pc).resets) :
    pc' ∈ s.resets ∨ pc' = pc :=
  List.mem_or_eq_of_mem_set h

/-- A reset takes a step that only it sees. -/
theorem Inv.setReset {cfg : Cfg} {s s' : Sys} {k : Nat} {pc : ResetPc} (h : Inv cfg s)
    (hdb : s'.db = s.db) (hc : s'.compact = s.compact) (hr : s'.resets = s.resets)
    (ho : ∀ k ∈ s.offered, k ∈ s'.offered) (hs : s'.summarised = s.summarised)
    (hpc : ResetOk cfg s' pc) : Inv cfg (s'.setReset k pc) := by
  have hsum : ∀ k ∈ s.summarised, k ∈ s'.summarised := by simp [hs]
  have hg : Grows cfg s s' := .of_db hdb ho hsum
  refine h.of_db hdb ho hsum ?_ ?_
  · have hok := h.compact.mono hg
    rw [← hc] at hok
    exact hok
  · intro pc' hmem
    rcases mem_setReset hmem with hold | rfl
    · exact .inl (hr ▸ hold)
    · exact .inr hpc

/-- What a reset has read. -/
theorem readAt_load {cfg : Cfg} {s : Sys} (h : Inv cfg s) :
    ReadAt cfg s (s.load cfg) (s.length cfg) := by
  obtain ⟨lo, hseqs, hw⟩ := seqs_loadTranscript h.numbered cfg.session cfg.history.maxHistoryEntries
  exact ⟨lo, hseqs, Nat.le_refl _, hw⟩

theorem inv_resetLoad {cfg : Cfg} {s t : Sys} {k : Nat} {loads : Bool} (h : Inv cfg s)
    (hs : resetLoad cfg s k loads = some t) : Inv cfg t := by
  have hread := readAt_load h
  unfold resetLoad at hs
  split at hs
  · dsimp only at hs
    split at hs
    · split at hs
      · next hempty =>
        cases hs
        rw [List.isEmpty_iff.1 hempty] at hread
        exact h.setReset rfl rfl rfl (fun _ => id) rfl ⟨hread, by simp [seqs]⟩
      · cases hs
        exact h.setReset rfl rfl rfl (fun _ => id) rfl hread
    · cases hs
      exact h.setReset rfl rfl rfl (fun _ => id) rfl rfl
  · cases hs

theorem inv_resetFlush {cfg : Cfg} {s t : Sys} {k : Nat} (h : Inv cfg s)
    (hs : resetFlush s k = some t) : Inv cfg t := by
  unfold resetFlush at hs
  split at hs
  · next entries read hpc =>
    cases hs
    have hok : ReadAt cfg s entries read := h.resets _ (List.mem_of_getElem? hpc)
    exact h.setReset rfl rfl rfl (fun _ => List.mem_append_left _) rfl
      ⟨hok, fun _ => List.mem_append_right _⟩
  · cases hs

theorem inv_resetWrite {cfg : Cfg} {s t : Sys} {k : Nat} {accepts : Bool} (h : Inv cfg s)
    (hs : resetWrite cfg s k accepts = some t) : Inv cfg t := by
  unfold resetWrite at hs
  split at hs
  · next handed read hpc =>
    split at hs
    · cases hs
      have hreset : ({ s with db := resetSession s.db cfg.session }.setReset k .done).resetAt cfg =
          s.length cfg := h.resetAt_of_reset rfl
      have hg : Grows cfg s ({ s with db := resetSession s.db cfg.session }.setReset k .done) :=
        ⟨Nat.le_refl _, h.reset_le.trans_eq hreset.symm, fun _ => id, fun _ => id⟩
      refine h.of_grows hg (numbered_resetSession h.numbered _) ?_ (Nat.le_of_eq hreset)
        (h.compact.mono hg) ?_
      · rw [← h.session]
        exact Db.hasSession_setResetAt _ _ _ _
      · intro pc hmem
        rcases mem_setReset hmem with hold | rfl
        · exact .inl hold
        · exact .inr trivial
    · cases hs
      exact h.setReset rfl rfl rfl (fun _ => id) rfl trivial
  · cases hs

theorem Inv.step {cfg : Cfg} {s t : Sys} {a : Act} (h : Inv cfg s) (hs : step cfg s a = some t) :
    Inv cfg t := by
  cases a with
  | append e =>
    simp only [Compact.step, Option.ite_none_right_eq_some, Option.map_eq_some_iff] at hs
    obtain ⟨⟨he, -⟩, r, happ, rfl⟩ := hs
    exact h.append happ he rfl rfl rfl rfl
  | dispatch content call =>
    simp only [Compact.step, Option.ite_none_right_eq_some, Option.map_eq_some_iff] at hs
    obtain ⟨-, r, happ, rfl⟩ := hs
    exact h.append happ rfl rfl rfl rfl rfl
  | result content =>
    simp only [Compact.step] at hs
    split at hs
    · next p call hopen =>
      split at hs
      · cases hs
        exact h.of_db rfl (fun _ => id) (fun _ => id) h.compact fun _ => .inl
      · simp only [Option.map_eq_some_iff] at hs
        obtain ⟨r, happ, rfl⟩ := hs
        exact h.append happ rfl rfl rfl rfl rfl
    · cases hs
  | giveUp =>
    cases hs
    exact h.of_db rfl (fun _ => id) (fun _ => id) h.compact fun _ => .inl
  | compactLoad loads => exact inv_compactLoad h hs
  | compactFlush => exact inv_compactFlush h hs
  | compactAsk => exact inv_compactAsk h hs
  | compactAnswer turn => exact inv_compactAnswer h hs
  | compactWrite accepts => exact inv_compactWrite h hs
  | resetStart =>
    cases hs
    refine h.of_db rfl (fun _ => id) (fun _ => id) h.compact fun pc hpc => ?_
    rw [List.mem_append, List.mem_singleton] at hpc
    rcases hpc with hold | rfl
    · exact .inl hold
    · exact .inr trivial
  | resetLoad k loads => exact inv_resetLoad h hs
  | resetFlush k => exact inv_resetFlush h hs
  | resetWrite k accepts => exact inv_resetWrite h hs

/-! ## What a step does to the transcript -/

/-- The steps that write to the store. -/
def Act.writes : Act → Bool
  | .append _ => true
  | .dispatch _ _ => true
  | .result content => content ≠ ""
  | .compactWrite accepts => accepts
  | .resetWrite _ accepts => accepts
  | _ => false

/-- What one step does to the transcript, the start of the context and the pairs. -/
inductive Change (cfg : Cfg) (s : Sys) (a : Act) (t : Sys) : Prop where
  | quiet (hwrites : a.writes = false) (hdb : t.db = s.db) (hpairs : t.pairs = s.pairs)
      (hopened : t.opened = s.opened ∨ t.opened = none)
  | append (e : NewEntry) (ha : a = .append e) (he : e.sessionId = cfg.session) (seq : Nat)
      (hdb : appendEntry s.db e = some (t.db, seq)) (hpairs : t.pairs = s.pairs)
      (hopened : t.opened = s.opened)
  | dispatch (content : String) (call : ToolCallSpec) (ha : a = .dispatch content call) (p : Nat)
      (hdb : appendEntry s.db (dispatchEntry cfg content call) = some (t.db, p))
      (hpairs : t.pairs = s.pairs) (hopened : t.opened = some (p, call))
  | result (content : String) (ha : a = .result content) (p q : Nat) (call : ToolCallSpec)
      (hopen : s.opened = some (p, call)) (hcontent : content ≠ "")
      (hdb : appendEntry s.db (resultEntry cfg content call) = some (t.db, q))
      (hpairs : t.pairs = s.pairs ++ [(p, q)]) (hopened : t.opened = none)
  | compacted (older : List Entry) (summary : String) (ha : a = .compactWrite true)
      (hpc : s.compact = .writing older summary) (hwritten : Written cfg s t older)
      (hdb : t.db.log cfg.session = s.db.log cfg.session ++
        [(summaryEntry cfg.session summary).toEntry (s.db.maxSeq cfg.session + 1)])
      (hpairs : t.pairs = s.pairs) (hopened : t.opened = s.opened)
  | reset (k : Nat) (handed : List Entry) (read : Option Nat) (ha : a = .resetWrite k true)
      (hpc : s.resets[k]? = some (.ready handed read))
      (hdb : t.db = resetSession s.db cfg.session)
      (hpairs : t.pairs = s.pairs) (hopened : t.opened = s.opened)

theorem change_compact {cfg : Cfg} {s t : Sys} {accepts : Bool} (h : Inv cfg s)
    (hs : compactWrite cfg s accepts = some t) : Change cfg s (.compactWrite accepts) t := by
  unfold compactWrite at hs
  split at hs
  · next older summary hpc =>
    cases accepts with
    | false =>
      cases hs
      exact .quiet rfl rfl rfl (.inl rfl)
    | true =>
      simp only [if_true] at hs
      split at hs
      · next db hw =>
        cases hs
        exact .compacted older summary rfl hpc (written_of_compact h hw)
          (log_compactWithSummary hw) rfl rfl
      · next hnone => exact absurd hnone (compactWithSummary_ne_none h.session _ _)
  · cases hs

theorem change_reset {cfg : Cfg} {s t : Sys} {k : Nat} {accepts : Bool}
    (hs : resetWrite cfg s k accepts = some t) : Change cfg s (.resetWrite k accepts) t := by
  unfold resetWrite at hs
  split at hs
  · next handed read hpc =>
    cases accepts with
    | false =>
      cases hs
      exact .quiet rfl rfl rfl (.inl rfl)
    | true =>
      cases hs
      exact .reset k handed read rfl hpc rfl rfl rfl
  · cases hs

theorem change_of_step {cfg : Cfg} {s t : Sys} {a : Act} (h : Inv cfg s)
    (hs : Compact.step cfg s a = some t) : Change cfg s a t := by
  cases a with
  | append e =>
    simp only [Compact.step, Option.ite_none_right_eq_some, Option.map_eq_some_iff] at hs
    obtain ⟨⟨he, -⟩, r, happ, rfl⟩ := hs
    exact .append e rfl he r.2 happ rfl rfl
  | dispatch content call =>
    simp only [Compact.step, Option.ite_none_right_eq_some, Option.map_eq_some_iff] at hs
    obtain ⟨-, r, happ, rfl⟩ := hs
    exact .dispatch content call rfl r.2 happ rfl rfl
  | result content =>
    simp only [Compact.step] at hs
    split at hs
    · next p call hopen =>
      split at hs
      · next hcontent =>
        cases hs
        exact .quiet (by simp [Act.writes, hcontent]) rfl rfl (.inr rfl)
      · next hcontent =>
        simp only [Option.map_eq_some_iff] at hs
        obtain ⟨r, happ, rfl⟩ := hs
        exact .result content rfl p r.2 call hopen hcontent happ rfl rfl
    · cases hs
  | giveUp =>
    cases hs
    exact .quiet rfl rfl rfl (.inr rfl)
  | compactLoad loads =>
    simp only [Compact.step, compactLoad] at hs
    split at hs
    · split at hs
      · split at hs
        · cases hs
          exact .quiet rfl rfl rfl (.inl rfl)
        · cases hs
          exact .quiet rfl rfl rfl (.inl rfl)
      · cases hs
        exact .quiet rfl rfl rfl (.inl rfl)
    · cases hs
  | compactFlush =>
    simp only [Compact.step, compactFlush] at hs
    split at hs
    · cases hs
      exact .quiet rfl rfl rfl (.inl rfl)
    · cases hs
  | compactAsk =>
    simp only [Compact.step, compactAsk] at hs
    split at hs
    · cases hs
      exact .quiet rfl rfl rfl (.inl rfl)
    · cases hs
  | compactAnswer turn =>
    simp only [Compact.step, compactAnswer] at hs
    split at hs
    · split at hs
      · cases hs
        exact .quiet rfl rfl rfl (.inl rfl)
      · cases hs
        exact .quiet rfl rfl rfl (.inl rfl)
    · cases hs
  | compactWrite accepts => exact change_compact h hs
  | resetStart =>
    cases hs
    exact .quiet rfl rfl rfl (.inl rfl)
  | resetLoad k loads =>
    simp only [Compact.step, resetLoad] at hs
    split at hs
    · split at hs
      · split at hs
        · cases hs
          exact .quiet rfl rfl rfl (.inl rfl)
        · cases hs
          exact .quiet rfl rfl rfl (.inl rfl)
      · cases hs
        exact .quiet rfl rfl rfl (.inl rfl)
    · cases hs
  | resetFlush k =>
    simp only [Compact.step, resetFlush] at hs
    split at hs
    · cases hs
      exact .quiet rfl rfl rfl (.inl rfl)
    · cases hs
  | resetWrite k accepts => exact change_reset hs

end Compact

end OhMyClaw
