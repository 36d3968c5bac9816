import Mathlib.Data.List.Sort
import OhMyClaw.Llm.Types

/-!
# Sessions and their transcripts

The two tables of the store the conversation lives in, and the operations on them.  A
session's transcript is the list of its entries; `resetAt` is the sequence number up to
which they no longer count as context.  Nothing is ever deleted: a reset or a
compaction only moves `resetAt`.

    Db.Numbered            the entries of every session are numbered 1, 2, 3, …
    loadTranscript_eq      what is loaded is the tail of the entries behind `resetAt`

Row ids, creation times and the session kind are left out: nothing modelled reads them.
-/

namespace OhMyClaw

inductive Role where
  | user | assistant | tool | system
deriving DecidableEq, Repr

/-- A record to be written.  The column `tool_calls` holds the calls as JSON text; here it
holds the calls that text decodes to (`none` also for text that does not decode, which the
reader treats alike). -/
structure NewEntry where
  sessionId : String
  role : Role
  content : String
  tokensEst : Int
  toolCalls : Option (List ToolCallSpec)
  toolCallId : Option String
deriving DecidableEq, Repr

/-- A record without tool structure. -/
def NewEntry.text (sessionId : String) (role : Role) (content : String) (tokensEst : Int) : NewEntry :=
  { sessionId, role, content, tokensEst, toolCalls := none, toolCallId := none }

structure Entry where
  sessionId : String
  seq : Nat
  role : Role
  content : String
  tokensEst : Int
  toolCalls : Option (List ToolCallSpec)
  toolCallId : Option String
deriving DecidableEq, Repr

def NewEntry.toEntry (e : NewEntry) (seq : Nat) : Entry :=
  { sessionId := e.sessionId, seq, role := e.role, content := e.content, tokensEst := e.tokensEst
    toolCalls := e.toolCalls, toolCallId := e.toolCallId }

structure SessionRow where
  id : String
  resetAt : Nat
deriving DecidableEq, Repr

structure Db where
  sessions : List SessionRow
  entries : List Entry
deriving DecidableEq, Repr

namespace Db

def empty : Db := { sessions := [], entries := [] }

/-- The entries of one session, in insertion order. -/
def log (db : Db) (id : String) : List Entry :=
  db.entries.filter (·.sessionId = id)

/-- `COALESCE(reset_at, 0)`, and 0 for a session that is not there. -/
def resetAt (db : Db) (id : String) : Nat :=
  match db.sessions.find? (·.id = id) with
  | some row => row.resetAt
  | none => 0

def hasSession (db : Db) (id : String) : Bool :=
  db.sessions.any (·.id = id)

/-- `COALESCE(MAX(seq), 0)` over the session's entries. -/
def maxSeq (db : Db) (id : String) : Nat :=
  ((db.log id).map (·.seq)).foldr max 0

def setResetAt (db : Db) (id : String) (f : Nat → Nat) : Db :=
  { db with sessions := db.sessions.map fun row =>
      if row.id = id then { row with resetAt := f row.resetAt } else row }

end Db

/-! ## Operations -/

def ensureSession (db : Db) (id : String) : Db :=
  if db.hasSession id then db else { db with sessions := db.sessions ++ [{ id, resetAt := 0 }] }

/-- Append a record and return its sequence number; refused by the foreign key when the
session row is missing. -/
def appendEntry (db : Db) (e : NewEntry) : Option (Db × Nat) :=
  if db.hasSession e.sessionId then
    let nextSeq := db.maxSeq e.sessionId + 1
    some ({ db with entries := db.entries ++ [e.toEntry nextSeq] }, nextSeq)
  else none

/-- Append records one after the other. -/
def appendAll (db : Db) : List NewEntry → Option Db
  | [] => some db
  | e :: es =>
    match appendEntry db e with
    | some (db', _) => appendAll db' es
    | none => none

/-- Move the start of the context to the current end of the transcript. -/
def resetSession (db : Db) (id : String) : Db :=
  db.setResetAt id fun _ => db.maxSeq id

/-- `LIMIT n`; a negative limit is no limit. -/
def sqlLimit {α : Type*} (n : Int) (xs : List α) : List α :=
  if n < 0 then xs else xs.take n.toNat

/-- The last `maxEntries` entries behind `resetAt`, oldest first. -/
def loadTranscript (db : Db) (id : String) (maxEntries : Int) : List Entry :=
  let rows := (db.log id).filter (db.resetAt id < ·.seq)
  (sqlLimit maxEntries (rows.insertionSort fun a b => b.seq ≤ a.seq)).reverse

def estimateTokens (s : String) : Int := max ((s.length : Int) / 4) 1

def summaryEntry (id summaryText : String) : NewEntry :=
  let content := "【上下文摘要】\n" ++ summaryText
  .text id .system content (estimateTokens content)

/-- Append the summary at the end and move `resetAt` to `upToSeq`, never backwards. -/
def compactWithSummary (db : Db) (id : String) (upToSeq : Nat) (summaryText : String) : Option Db :=
  match appendEntry db (summaryEntry id summaryText) with
  | some (db', _) => some (db'.setResetAt id (max · upToSeq))
  | none => none

/-! ## Field lemmas -/

namespace Db

@[simp] theorem log_setResetAt (db : Db) (id : String) (f : Nat → Nat) (id' : String) :
    (db.setResetAt id f).log id' = db.log id' := rfl

@[simp] theorem hasSession_setResetAt (db : Db) (id : String) (f : Nat → Nat) (id' : String) :
    (db.setResetAt id f).hasSession id' = db.hasSession id' := by
  simp only [hasSession, setResetAt, List.any_map]
  congr 1
  funext row
  simp only [Function.comp_apply]
  split <;> rfl

theorem resetAt_setResetAt (db : Db) (id : String) (f : Nat → Nat) (h : db.hasSession id) :
    (db.setResetAt id f).resetAt id = f (db.resetAt id) := by
  simp only [resetAt, setResetAt, List.find?_map]
  have hcomp : ((fun row : SessionRow => decide (row.id = id)) ∘ fun row =>
      if row.id = id then { row with resetAt := f row.resetAt } else row) =
      fun row => decide (row.id = id) := by
    funext row
    simp only [Function.comp_apply]
    split <;> rfl
  rw [hcomp]
  cases hf : db.sessions.find? (fun row => decide (row.id = id)) with
  | none =>
    simp only [hasSession, List.any_eq_true] at h
    obtain ⟨row, hrow, hid⟩ := h
    exact absurd hid (List.find?_eq_none.1 hf row hrow)
  | some row =>
    have hid := List.find?_some hf
    simp only [decide_eq_true_eq] at hid
    simp [hid]

/-- A session that is not there has its context begin at 0. -/
theorem resetAt_setResetAt_of_not_hasSession {db : Db} {id : String} {f : Nat → Nat} (h : db.hasSession id = false) :
    (db.setResetAt id f).resetAt id = 0 := by
  have hnone : ∀ row ∈ (db.setResetAt id f).sessions, ¬ row.id = id := by
    intro row hrow hid
    have hhas := hasSession_setResetAt db id f id
    rw [h] at hhas
    simp only [hasSession, List.any_eq_false, decide_eq_true_eq] at hhas
    exact hhas row hrow hid
  unfold resetAt
  rw [List.find?_eq_none.2 (by simpa using hnone)]

theorem resetAt_setResetAt_ne (db : Db) (f : Nat → Nat) {id id' : String} (h : id' ≠ id) :
    (db.setResetAt id f).resetAt id' = db.resetAt id' := by
  simp only [resetAt, setResetAt, List.find?_map]
  have hcomp : ((fun row : SessionRow => decide (row.id = id')) ∘ fun row =>
      if row.id = id then { row with resetAt := f row.resetAt } else row) =
      fun row => decide (row.id = id') := by
    funext row
    simp only [Function.comp_apply]
    split <;> rfl
  rw [hcomp]
  cases hf : db.sessions.find? (fun row => decide (row.id = id')) with
  | none => rfl
  | some row =>
    have hid : row.id = id' := by simpa using List.find?_some hf
    simp [hid, h]

/-! ## Numbering -/

/-- The entries of every session are numbered from 1, without gap, in insertion order. -/
def Numbered (db : Db) : Prop :=
  ∀ id, (db.log id).map (·.seq) = List.range' 1 (db.log id).length

theorem foldr_max_range' (n : Nat) : (List.range' 1 n).foldr max 0 = n := by
  induction n with
  | zero => rfl
  | succ n ih =>
    rw [List.range'_1_concat, List.foldr_append]
    have hgen : ∀ (xs : List Nat) (a : Nat), xs.foldr max a = max (xs.foldr max 0) a := by
      intro xs a
      induction xs with
      | nil => simp
      | cons x xs ihx => simp only [List.foldr_cons, ihx, max_assoc]
    rw [hgen, ih]
    simp only [List.foldr_cons, List.foldr_nil]
    omega

theorem Numbered.maxSeq_eq {db : Db} (h : db.Numbered) (id : String) :
    db.maxSeq id = (db.log id).length := by
  rw [maxSeq, h id, foldr_max_range']

/-- The entry at position `i` carries the number `i + 1`. -/
theorem Numbered.seq_eq {db : Db} (h : db.Numbered) {id : String} {i : Nat} {e : Entry}
    (he : (db.log id)[i]? = some e) : e.seq = i + 1 := by
  have hmap : ((db.log id).map (·.seq))[i]? = some e.seq := by simp [he]
  have hlt : i < (db.log id).length := (List.getElem?_eq_some_iff.1 he).1
  rw [h id, List.getElem?_range' hlt, Option.some.injEq] at hmap
  omega

theorem Numbered.setResetAt {db : Db} (h : db.Numbered) (id : String) (f : Nat → Nat) :
    (db.setResetAt id f).Numbered := h

end Db

/-! ## What the operations do -/

theorem appendEntry_eq_some {db : Db} {e : NewEntry} {db' : Db} {seq : Nat} :
    appendEntry db e = some (db', seq) ↔
      db.hasSession e.sessionId = true ∧ seq = db.maxSeq e.sessionId + 1 ∧
      db' = { db with entries := db.entries ++ [e.toEntry seq] } := by
  unfold appendEntry
  split
  · next h =>
    simp only [Option.some.injEq, Prod.mk.injEq, h, true_and]
    constructor
    · rintro ⟨rfl, rfl⟩
      exact ⟨rfl, rfl⟩
    · rintro ⟨rfl, rfl⟩
      exact ⟨rfl, rfl⟩
  · next h => simp [h]

theorem log_appendEntry {db : Db} {e : NewEntry} {db' : Db} {seq : Nat}
    (h : appendEntry db e = some (db', seq)) :
    db'.log e.sessionId = db.log e.sessionId ++ [e.toEntry seq] := by
  obtain ⟨_, _, rfl⟩ := appendEntry_eq_some.1 h
  simp [Db.log, NewEntry.toEntry]

theorem log_appendEntry_ne {db : Db} {e : NewEntry} {db' : Db} {seq : Nat} {id : String}
    (h : appendEntry db e = some (db', seq)) (hne : id ≠ e.sessionId) :
    db'.log id = db.log id := by
  obtain ⟨_, _, rfl⟩ := appendEntry_eq_some.1 h
  simp [Db.log, NewEntry.toEntry, hne.symm]

theorem resetAt_appendEntry {db : Db} {e : NewEntry} {db' : Db} {seq : Nat}
    (h : appendEntry db e = some (db', seq)) (id : String) : db'.resetAt id = db.resetAt id := by
  obtain ⟨_, _, rfl⟩ := appendEntry_eq_some.1 h
  rfl

theorem hasSession_appendEntry {db : Db} {e : NewEntry} {db' : Db} {seq : Nat}
    (h : appendEntry db e = some (db', seq)) (id : String) : db'.hasSession id = db.hasSession id := by
  obtain ⟨_, _, rfl⟩ := appendEntry_eq_some.1 h
  rfl

/-- The number an entry gets is its position in the session's transcript, counted from 1. -/
theorem appendEntry_seq {db : Db} (hn : db.Numbered) {e : NewEntry} {db' : Db} {seq : Nat}
    (h : appendEntry db e = some (db', seq)) : seq = (db.log e.sessionId).length + 1 := by
  obtain ⟨_, rfl, _⟩ := appendEntry_eq_some.1 h
  rw [hn.maxSeq_eq]

theorem numbered_appendEntry {db : Db} (hn : db.Numbered) {e : NewEntry} {db' : Db} {seq : Nat}
    (h : appendEntry db e = some (db', seq)) : db'.Numbered := by
  intro id
  by_cases hid : id = e.sessionId
  · subst hid
    have hseq := appendEntry_seq hn h
    rw [log_appendEntry h, List.map_append, hn e.sessionId, List.length_append]
    simp only [List.map_cons, List.map_nil, List.length_cons, List.length_nil]
    rw [List.range'_1_concat, hseq, Nat.add_comm 1]
    rfl
  · rw [log_appendEntry_ne h hid]
    exact hn id

/-- The entries hold the records. -/
def Holds (es : List NewEntry) (rows : List Entry) : Prop :=
  List.Forall₂ (fun e row => ∃ seq, row = NewEntry.toEntry e seq) es rows

namespace Holds

variable {es : List NewEntry} {rows : List Entry}

theorem length_eq (h : Holds es rows) : es.length = rows.length := List.Forall₂.length_eq h

/-- What is read of an entry apart from its number is what is in the record. -/
theorem map_eq {α : Type*} (h : Holds es rows) {f : Entry → α} {g : NewEntry → α}
    (hf : ∀ e seq, f (NewEntry.toEntry e seq) = g e) : rows.map f = es.map g := by
  induction h with
  | nil => rfl
  | cons hrow _ ih =>
    obtain ⟨seq, rfl⟩ := hrow
    rw [List.map_cons, List.map_cons, hf, ih]

theorem head (h : Holds es rows) {P : Role → Prop} (hes : ∀ e, es.head? = some e → P e.role) :
    ∀ row, rows.head? = some row → P row.role := by
  cases h with
  | nil => simp
  | cons hrow _ =>
    obtain ⟨seq, rfl⟩ := hrow
    intro row hhead
    exact Option.some.inj hhead ▸ hes _ rfl

end Holds

/-- Records of one session go behind its transcript; its context begins where it did. -/
theorem appendAll_spec {db db' : Db} {id : String} {es : List NewEntry} (hn : db.Numbered)
    (hes : ∀ e ∈ es, e.sessionId = id) (h : appendAll db es = some db') :
    db'.Numbered ∧ db'.resetAt id = db.resetAt id ∧ ∃ rows, db'.log id = db.log id ++ rows ∧ Holds es rows := by
  induction es generalizing db with
  | nil =>
    obtain rfl : db = db' := by simpa [appendAll] using h
    exact ⟨hn, rfl, [], (List.append_nil _).symm, .nil⟩
  | cons e es ih =>
    simp only [appendAll] at h
    split at h
    · next db₁ seq happ =>
      have hid := hes e List.mem_cons_self
      obtain ⟨hn', hreset, rows, hlog, hholds⟩ := ih (numbered_appendEntry hn happ)
        (fun f hf => hes f (List.mem_cons_of_mem _ hf)) h
      refine ⟨hn', ?_, e.toEntry seq :: rows, ?_, .cons ⟨seq, rfl⟩ hholds⟩
      · rw [hreset, resetAt_appendEntry happ]
      · have hlog₁ := log_appendEntry happ
        rw [hid] at hlog₁
        rw [hlog, hlog₁, List.append_assoc]
        rfl
    · simp at h

theorem compactWithSummary_eq_some {db : Db} {id : String} {upTo : Nat} {summary : String} {db' : Db} :
    compactWithSummary db id upTo summary = some db' ↔
      ∃ db₁ seq, appendEntry db (summaryEntry id summary) = some (db₁, seq) ∧
        db' = db₁.setResetAt id (max · upTo) := by
  unfold compactWithSummary
  cases h : appendEntry db (summaryEntry id summary) with
  | none => simp
  | some p =>
    obtain ⟨db₁, seq⟩ := p
    simp only [Option.some.injEq, Prod.mk.injEq]
    constructor
    · rintro rfl
      exact ⟨db₁, seq, ⟨rfl, rfl⟩, rfl⟩
    · rintro ⟨_, _, ⟨rfl, rfl⟩, rfl⟩
      rfl

theorem numbered_compactWithSummary {db : Db} (hn : db.Numbered) {id : String} {upTo : Nat}
    {summary : String} {db' : Db} (h : compactWithSummary db id upTo summary = some db') :
    db'.Numbered := by
  obtain ⟨db₁, seq, happ, rfl⟩ := compactWithSummary_eq_some.1 h
  exact (numbered_appendEntry hn happ).setResetAt id _

theorem log_compactWithSummary {db : Db} {id : String} {upTo : Nat} {summary : String} {db' : Db}
    (h : compactWithSummary db id upTo summary = some db') :
    db'.log id = db.log id ++ [(summaryEntry id summary).toEntry (db.maxSeq id + 1)] := by
  obtain ⟨db₁, seq, happ, rfl⟩ := compactWithSummary_eq_some.1 h
  have hlog := log_appendEntry happ
  obtain ⟨_, rfl, _⟩ := appendEntry_eq_some.1 happ
  exact hlog

theorem resetAt_compactWithSummary {db : Db} {id : String} {upTo : Nat} {summary : String} {db' : Db}
    (h : compactWithSummary db id upTo summary = some db') :
    db'.resetAt id = max (db.resetAt id) upTo := by
  obtain ⟨db₁, seq, happ, rfl⟩ := compactWithSummary_eq_some.1 h
  have hs : db₁.hasSession id = true := by
    rw [hasSession_appendEntry happ]
    exact (appendEntry_eq_some.1 happ).1
  rw [Db.resetAt_setResetAt _ _ _ hs, resetAt_appendEntry happ]

theorem hasSession_compactWithSummary {db : Db} {id : String} {upTo : Nat} {summary : String} {db' : Db}
    (h : compactWithSummary db id upTo summary = some db') : db'.hasSession id = true := by
  obtain ⟨db₁, seq, happ, rfl⟩ := compactWithSummary_eq_some.1 h
  rw [Db.hasSession_setResetAt, hasSession_appendEntry happ]
  exact (appendEntry_eq_some.1 happ).1

theorem numbered_resetSession {db : Db} (hn : db.Numbered) (id : String) :
    (resetSession db id).Numbered := hn.setResetAt id _

@[simp] theorem log_resetSession (db : Db) (id id' : String) :
    (resetSession db id).log id' = db.log id' := rfl

theorem resetAt_resetSession {db : Db} (hn : db.Numbered) {id : String} (h : db.hasSession id) :
    (resetSession db id).resetAt id = (db.log id).length := by
  rw [resetSession, Db.resetAt_setResetAt _ _ _ h, hn.maxSeq_eq]

/-! ## Soundness -/

/-- What holds of every store the operations lead to: numbered transcripts, and a context that begins inside
its transcript. -/
structure Db.Sound (db : Db) : Prop where
  numbered : db.Numbered
  reset : ∀ id, db.resetAt id ≤ (db.log id).length

theorem sound_empty : Db.empty.Sound :=
  ⟨fun _ => rfl, fun _ => Nat.le_refl _⟩

theorem sound_ensureSession {db : Db} (h : db.Sound) (id : String) : (ensureSession db id).Sound := by
  unfold ensureSession
  split
  · exact h
  · refine ⟨h.numbered, fun id' => ?_⟩
    show Db.resetAt { db with sessions := db.sessions ++ [{ id, resetAt := 0 }] } id' ≤ (db.log id').length
    have hreset := h.reset id'
    unfold Db.resetAt at hreset ⊢
    rw [List.find?_append]
    cases hf : db.sessions.find? (·.id = id') with
    | some row =>
      rw [hf] at hreset
      exact hreset
    | none =>
      by_cases hid : id = id' <;> simp [hid]

theorem sound_appendEntry {db : Db} (h : db.Sound) {e : NewEntry} {db' : Db} {seq : Nat}
    (happ : appendEntry db e = some (db', seq)) : db'.Sound := by
  refine ⟨numbered_appendEntry h.numbered happ, fun id => ?_⟩
  rw [resetAt_appendEntry happ]
  apply (h.reset id).trans
  by_cases hid : id = e.sessionId
  · rw [hid, log_appendEntry happ, List.length_append]
    omega
  · rw [log_appendEntry_ne happ hid]

theorem Db.Sound.setResetAt {db : Db} (h : db.Sound) {id : String} {f : Nat → Nat}
    (hf : f (db.resetAt id) ≤ (db.log id).length) : (db.setResetAt id f).Sound := by
  refine ⟨h.numbered.setResetAt id f, fun id' => ?_⟩
  show (db.setResetAt id f).resetAt id' ≤ (db.log id').length
  by_cases hid : id' = id
  · subst hid
    by_cases hs : db.hasSession id' = true
    · rw [Db.resetAt_setResetAt db id' f hs]
      exact hf
    · rw [Db.resetAt_setResetAt_of_not_hasSession (by simpa using hs)]
      exact Nat.zero_le _
  · rw [Db.resetAt_setResetAt_ne db f hid]
    exact h.reset id'

theorem sound_resetSession {db : Db} (h : db.Sound) (id : String) : (resetSession db id).Sound :=
  h.setResetAt (h.numbered.maxSeq_eq id).le

theorem sound_compactWithSummary {db : Db} (h : db.Sound) {id : String} {upTo : Nat} {summary : String} {db' : Db}
    (hupTo : upTo ≤ (db.log id).length) (hc : compactWithSummary db id upTo summary = some db') : db'.Sound := by
  obtain ⟨db₁, seq, happ, rfl⟩ := compactWithSummary_eq_some.1 hc
  have h₁ := sound_appendEntry h happ
  apply h₁.setResetAt
  have hlog := log_appendEntry happ
  have hid : (summaryEntry id summary).sessionId = id := rfl
  rw [hid] at hlog
  have hreset := h.reset id
  rw [resetAt_appendEntry happ, hlog, List.length_append]
  simp only [List.length_cons, List.length_nil]
  omega

/-! ## Loading -/

/-- The last `n` elements; all of them for a negative `n`. -/
def lastN {α : Type*} (n : Int) (xs : List α) : List α :=
  if n < 0 then xs else xs.drop (xs.length - n.toNat)

/-- A limit that covers the end keeps it. -/
theorem lastN_append {α : Type*} {n : Int} {xs ys : List α} (h : n < 0 ∨ (ys.length : Int) ≤ n) :
    ∃ zs, lastN n (xs ++ ys) = zs ++ ys := by
  unfold lastN
  split
  · exact ⟨xs, rfl⟩
  · next hn =>
    have hle : ys.length ≤ n.toNat := by omega
    refine ⟨xs.drop (xs.length + ys.length - n.toNat), ?_⟩
    rw [List.length_append, List.drop_append_of_le_length (by omega)]

theorem sqlLimit_reverse {α : Type*} (n : Int) (xs : List α) :
    (sqlLimit n xs.reverse).reverse = lastN n xs := by
  unfold sqlLimit lastN
  split
  · exact xs.reverse_reverse
  · rw [List.take_reverse, List.reverse_reverse]

theorem Db.Numbered.pairwise_seq {db : Db} (h : db.Numbered) (id : String) :
    (db.log id).Pairwise (fun a b => a.seq < b.seq) := by
  rw [← List.pairwise_map (f := Entry.seq) (R := (· < ·)), h id]
  exact List.pairwise_lt_range'

/-- Selecting the entries behind `r` drops the first `r`. -/
theorem Db.Numbered.filter_seq {db : Db} (h : db.Numbered) (id : String) (r : Nat) :
    (db.log id).filter (r < ·.seq) = (db.log id).drop r := by
  have hfront : ∀ e ∈ (db.log id).take r, ¬ (r < e.seq) := by
    intro e he
    obtain ⟨i, hi⟩ := List.mem_iff_getElem?.1 he
    rw [List.getElem?_take] at hi
    split at hi
    · have := h.seq_eq hi
      omega
    · simp at hi
  have hback : ∀ e ∈ (db.log id).drop r, r < e.seq := by
    intro e he
    obtain ⟨i, hi⟩ := List.mem_iff_getElem?.1 he
    rw [List.getElem?_drop] at hi
    have := h.seq_eq hi
    omega
  conv_lhs => rw [← List.take_append_drop r (db.log id)]
  rw [List.filter_append, List.filter_eq_nil_iff.2 (by simpa using hfront),
    List.filter_eq_self.2 (by simpa using hback), List.nil_append]

/-- Sorting entries with increasing numbers downwards reverses them. -/
theorem insertionSort_desc {rows : List Entry} (h : rows.Pairwise (fun a b => a.seq < b.seq)) :
    (rows.insertionSort fun a b => b.seq ≤ a.seq) = rows.reverse := by
  have hnodup : (rows.map (·.seq)).Nodup := by
    rw [List.Nodup, List.pairwise_map]
    exact h.imp Nat.ne_of_lt
  refine @List.Perm.eq_of_pairwise Entry (fun a b => b.seq ≤ a.seq) _ _ ?_ ?_ ?_ ?_
  · intro a b ha hb hab hba
    rw [List.mem_insertionSort] at ha
    rw [List.mem_reverse] at hb
    exact List.inj_on_of_nodup_map hnodup ha hb (Nat.le_antisymm hba hab)
  · exact List.pairwise_insertionSort _ _
  · rw [List.pairwise_reverse]
    exact h.imp Nat.le_of_lt
  · exact (List.perm_insertionSort _ _).trans (List.reverse_perm rows).symm

/-- What is loaded: the last `maxEntries` of the entries behind `resetAt`. -/
theorem loadTranscript_eq {db : Db} (h : db.Numbered) (id : String) (maxEntries : Int) :
    loadTranscript db id maxEntries = lastN maxEntries ((db.log id).drop (db.resetAt id)) := by
  have hpair := (h.pairwise_seq id).sublist (List.drop_sublist (db.resetAt id) _)
  simp only [loadTranscript, h.filter_seq, insertionSort_desc hpair]
  exact sqlLimit_reverse maxEntries _

end OhMyClaw
