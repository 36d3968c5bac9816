import OhMyClaw.Core.Memory
import OhMyClaw.Server.Consolidate
import OhMyClaw.Server.Intents
import OhMyClaw.Store.MemorySearch

/-!
# Recalled memories and their use counts

A run begins with a search for curated memories that fit the user's message; what is found goes
into the prompt.  The store has an operation that counts the use of a memory, meant for a recall,
and the gates of the dreaming scan ask for that count.  Nothing in the server calls it: every
count stays at zero.

    idle_step             no write of the server counts a use
    counted_iff           when the counts say how often a memory was recalled
    scanWith_of_idle      a scan that asks for a use lets nothing through
-/

namespace OhMyClaw

/-- The tier is not taken from the row: the search is for curated memories only. -/
def toMemCandidate (r : MemoryRow) : MemCandidate :=
  { id := r.id, tier := .curated, text := r.text, importance := r.importance }

namespace Recall

variable {U : Unicode} (F : SearchEngine U) (toLowercase : List Char → List Char)

/-- The memories a message brings into its run; a search that fails brings none. -/
def lane1Bootstrap (db : MemDb) (userMsg : String) (triggerMaxPerTurn : Nat) (reads : Bool) : List MemLine :=
  let terms := tokenize userMsg
  if terms = [] then []
  else if reads then
    match searchCandidates F db terms (some .curated) 32 with
    | some rows =>
      let cands := rows.map toMemCandidate
      let hits := triggerPrefilter toLowercase cands terms triggerMaxPerTurn
      (hits.filterMap fun id => cands.find? (·.id = id)).map fun c => { key := c.id, text := c.text }
    | none => []
  else []

/-! ## Runs and writes -/

/-- The store, and beside it one id for each time a memory that is still there was brought into a
run. -/
structure World where
  db : MemDb
  tally : List String
deriving DecidableEq, Repr

inductive Act where
  /-- A write of the server: an explicit memory, an episode, what a dreaming scan decides. -/
  | write (a : MemDb.Act)
  /-- A run begins. -/
  | run (userMsg : String) (triggerMaxPerTurn : Nat) (reads : Bool)
deriving DecidableEq, Repr

def start : World := { db := .empty, tally := [] }

def isTouch : MemDb.Op → Bool
  | .touch _ _ => true
  | _ => false

/-- Only the tests of the source count a use. -/
def countsUse : MemDb.Act → Bool
  | .commits op => isTouch op
  | .fails op => isTouch op

/-- The memories an action brings into a run. -/
def injected (w : World) : Act → List String
  | .write _ => []
  | .run userMsg triggerMaxPerTurn reads =>
    (lane1Bootstrap F toLowercase w.db userMsg triggerMaxPerTurn reads).map (·.key)

/-- A run reads the store and leaves it as it is.  A memory that is deleted takes its tally along. -/
def step (w : World) : Act → Option World
  | .write a =>
    if countsUse a then none
    else
      (w.db.step U a).map fun db =>
        { db, tally := w.tally.filter fun id => db.memory.any (·.id = id) }
  | .run userMsg triggerMaxPerTurn reads =>
    some { w with tally := w.tally ++ injected F toLowercase w (.run userMsg triggerMaxPerTurn reads) }

/-- Each memory's count is the number of times it was brought into a run, and a memory that was has
a time of last use. -/
def Counted (w : World) : Prop :=
  ∀ r ∈ w.db.memory, r.useCount = (w.tally.count r.id : Int) ∧
    (0 < w.tally.count r.id → r.lastUsedAt.isSome = true)

/-! ## What a run finds -/

variable {F} {toLowercase}

theorem mem_sqlLimit {α : Type*} {limit : Int} {xs : List α} {x : α} (h : x ∈ sqlLimit limit xs) : x ∈ xs := by
  unfold sqlLimit at h
  split at h
  · exact h
  · exact List.mem_of_mem_take h

theorem mem_of_searchCandidates {db : MemDb} {queryTerms : List String} {tierFilter : Option Tier}
    {limit : Int} {rows : List MemoryRow} (h : searchCandidates F db queryTerms tierFilter limit = some rows)
    {r : MemoryRow} (hr : r ∈ rows) : r ∈ db.memory := by
  unfold searchCandidates at h
  split at h
  · cases h
  split at h
  · cases h
  split at h
  · obtain rfl := Option.some.inj h
    have hr := mem_sqlLimit hr
    rw [descending, List.mem_insertionSort] at hr
    exact (List.mem_filter.1 hr).1
  split at h
  · obtain rfl := Option.some.inj h
    obtain ⟨p, hp, rfl⟩ := List.mem_map.1 hr
    have hp := mem_sqlLimit hp
    rw [descending, List.mem_insertionSort] at hp
    obtain ⟨f, -, hp⟩ := List.mem_flatMap.1 (List.mem_filter.1 hp).1
    obtain ⟨m, hm, rfl⟩ := List.mem_map.1 hp
    exact (List.mem_filter.1 hm).1
  · obtain rfl := Option.some.inj h
    have hr := mem_sqlLimit hr
    rw [descending, List.mem_insertionSort] at hr
    exact (List.mem_filter.1 hr).1

/-- What is brought into a run is there. -/
theorem mem_of_injected {w : World} {a : Act} {id : String} (h : id ∈ injected F toLowercase w a) :
    ∃ r ∈ w.db.memory, r.id = id := by
  cases a with
  | write a => simp [injected] at h
  | run userMsg triggerMaxPerTurn reads =>
    simp only [injected, lane1Bootstrap] at h
    split at h
    · simp at h
    split at h
    · split at h
      · next rows hrows =>
        obtain ⟨line, hline, rfl⟩ := List.mem_map.1 h
        obtain ⟨c, hc, rfl⟩ := List.mem_map.1 hline
        obtain ⟨_, _, hfind⟩ := List.mem_filterMap.1 hc
        obtain ⟨r, hr, rfl⟩ := List.mem_map.1 (List.mem_of_find?_eq_some hfind)
        exact ⟨r, mem_of_searchCandidates hrows hr, rfl⟩
      · simp at h
    · simp at h

/-! ## Nobody counts -/

/-- No memory has been used, and the tally speaks of memories that are there. -/
structure Idle (U : Unicode) (w : World) : Prop where
  sound : w.db.Sound U
  unused : ∀ r ∈ w.db.memory, r.useCount = 0 ∧ r.lastUsedAt = none
  there : ∀ id ∈ w.tally, ∃ r ∈ w.db.memory, r.id = id

theorem unused_onRow {op : MemDb.Op} (hop : isTouch op = false) {r r' : MemoryRow}
    (h : op.onRow r = some r') : r'.useCount = r.useCount ∧ r'.lastUsedAt = r.lastUsedAt := by
  cases op with
  | upsert m now =>
    obtain rfl := Option.some.inj h
    split <;> exact ⟨rfl, rfl⟩
  | touch id usedAt => simp [isTouch] at hop
  | promote id =>
    obtain rfl := Option.some.inj h
    split <;> exact ⟨rfl, rfl⟩
  | merge sourceId targetId text hash =>
    simp only [MemDb.Op.onRow] at h
    split_ifs at h <;> obtain rfl := Option.some.inj h <;> exact ⟨rfl, rfl⟩
  | delete id =>
    simp only [MemDb.Op.onRow] at h
    split_ifs at h
    obtain rfl := Option.some.inj h
    exact ⟨rfl, rfl⟩

theorem unused_newRows {op : MemDb.Op} {db : MemDb} {r : MemoryRow} (h : r ∈ op.newRows db) :
    r.useCount = 0 ∧ r.lastUsedAt = none := by
  cases op with
  | upsert m now =>
    obtain ⟨-, rfl⟩ := MemDb.mem_newRows.1 h
    exact ⟨rfl, rfl⟩
  | _ => simp [MemDb.Op.newRows] at h

theorem unused_apply {db : MemDb} (hsound : db.Sound U)
    (h : ∀ r ∈ db.memory, r.useCount = 0 ∧ r.lastUsedAt = none) {op : MemDb.Op} (hop : isTouch op = false) :
    ∀ r ∈ (db.apply U op).memory, r.useCount = 0 ∧ r.lastUsedAt = none := by
  by_cases hlands : op.Lands db
  · intro r hr
    rw [MemDb.memory_apply hsound op hlands] at hr
    rcases List.mem_append.1 hr with hr | hr
    · obtain ⟨r', hr', heq⟩ := List.mem_filterMap.1 hr
      obtain ⟨huse, hlast⟩ := unused_onRow hop heq
      rw [huse, hlast]
      exact h r' hr'
    · exact unused_newRows hr
  · -- a merge without its target changes nothing
    cases op with
    | merge sourceId targetId text hash =>
      have hnone : db.noOf targetId = none := MemDb.noOf_eq_none fun r hr hid => hlands ⟨r, hr, hid⟩
      have hsame : db.apply U (.merge sourceId targetId text hash) = db := by
        show db.mergeMemory U sourceId targetId text hash = db
        rw [MemDb.mergeMemory, hnone]
      rw [hsame]
      exact h
    | _ => exact absurd trivial hlands

theorem idle_start : Idle U start := ⟨MemDb.sound_empty, by simp [start, MemDb.empty], by simp [start]⟩

theorem idle_step {w w' : World} {a : Act} (h : Idle U w) (hstep : step F toLowercase w a = some w') :
    Idle U w' := by
  cases a with
  | write a =>
    simp only [step, Option.ite_none_left_eq_some, Option.map_eq_some_iff] at hstep
    obtain ⟨hcounts, db, hdb, rfl⟩ := hstep
    refine ⟨MemDb.sound_step h.sound hdb, ?_, ?_⟩
    · cases a with
      | fails op =>
        obtain rfl := Option.some.inj hdb
        exact h.unused
      | commits op =>
        obtain rfl := Option.some.inj hdb
        exact unused_apply h.sound h.unused (by simpa [countsUse] using hcounts)
    · intro id hid
      simpa using (List.mem_filter.1 hid).2
  | run userMsg triggerMaxPerTurn reads =>
    obtain rfl := Option.some.inj hstep
    refine ⟨h.sound, h.unused, ?_⟩
    intro id hid
    rcases List.mem_append.1 hid with hid | hid
    · exact h.there id hid
    · exact mem_of_injected (w := w) hid

/-- Where nobody counts, the counts are right only as long as there is nothing to count. -/
theorem counted_iff_of_idle {w : World} (h : Idle U w) : Counted w ↔ w.tally = [] := by
  constructor
  · intro hcounted
    apply List.eq_nil_iff_forall_not_mem.2
    intro id hid
    obtain ⟨r, hr, rfl⟩ := h.there id hid
    have hpos := List.count_pos_iff.2 hid
    have huse := (hcounted r hr).1
    rw [(h.unused r hr).1] at huse
    omega
  · intro hnil r hr
    simp [hnil, (h.unused r hr).1]

/-- A scan that asks for a single use lets nothing through. -/
theorem scanWith_of_idle {w : World} (h : Idle U w) (q : DreamRun) (huse : 0 < q.cfg.minUseCount) :
    q.scanWith U w.db = (w.db, []) := by
  have hnone : q.consolidations w.db = [] := by
    apply List.eq_nil_iff_forall_not_mem.2
    intro k hk
    obtain ⟨c, hc, hgated, -⟩ := gated_of_dreamingGate hk
    obtain ⟨r, hr, rfl⟩ := List.mem_map.1 hc
    have hgate := hgated.useCount
    have hzero := (h.unused r (DreamRun.mem_rows hr).1).1
    simp only [toCandidate, hzero] at hgate
    simp at hgate
    omega
  simp [DreamRun.scanWith, hnone]

/-- The counts are right throughout a run of the server exactly if no memory is ever brought into
a run; and in every state the server reaches, a scan that asks for a use consolidates nothing. -/
theorem counted_iff (F : SearchEngine U) (toLowercase : List Char → List Char) (acts : List Act) :
    (Steps.AllStates (step F toLowercase) Counted start acts ↔
      Steps.AllSteps (step F toLowercase) (fun w a _ => injected F toLowercase w a = []) start acts) ∧
    ∀ w, Steps.exec (step F toLowercase) start acts = some w →
      ∀ q : DreamRun, 0 < q.cfg.minUseCount → q.scanWith U w.db = (w.db, []) := by
  constructor
  · refine Steps.allStates_iff_allSteps (I := Idle U) (fun _ _ _ h hs => idle_step h hs) ?_ idle_start ?_ acts
    · intro w a w' hidle hcounted hstep
      rw [counted_iff_of_idle hidle] at hcounted
      rw [counted_iff_of_idle (idle_step hidle hstep)]
      cases a with
      | write a =>
        simp only [step, Option.ite_none_left_eq_some, Option.map_eq_some_iff] at hstep
        obtain ⟨-, db, -, rfl⟩ := hstep
        simp [hcounted, injected]
      | run userMsg triggerMaxPerTurn reads =>
        obtain rfl := Option.some.inj hstep
        simp [hcounted]
    · exact (counted_iff_of_idle (U := U) idle_start).2 rfl
  · intro w hrun q huse
    exact scanWith_of_idle (Steps.exec_invariant (fun _ _ _ h hs => idle_step h hs) idle_start hrun) q huse

/-- A curated memory is brought into a run, and its count stays at zero. -/
theorem counted_fails :
    ¬ Steps.AllStates (step testEngine id) Counted start
      [.write (.commits (.upsert (testMemory "c1" .curated "use vs code") 1)), .run "vs code?" 3 true] := by
  unfold Steps.AllStates Counted
  decide +kernel

end Recall

end OhMyClaw
