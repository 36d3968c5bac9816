import OhMyClaw.Core.Memory
import OhMyClaw.Server.Dreaming
import OhMyClaw.Store.MemoryRows

/-!
# Episodes

Before a conversation leaves the context its episodes are written as memories.  The id of an episode is
the hash of its text, so a second flush of the same conversation writes the same rows: also those that
have meanwhile been promoted, and whose texts are no longer what the id was made from.

    mem_upserts         a row after some writes
    flush_frames_iff    when the curated memories come through a flush
-/

namespace OhMyClaw

/-- All that a flush depends on besides the store and the transcript; `commits` says which of the writes go
through. -/
structure FlushRun where
  sessionId : String
  fl : ℚ → ℚ
  toLowercase : List Char → List Char
  now : Nat → Int
  commits : Nat → Bool

def memoryId (content : String) : String := "mem-" ++ hashHex content

def episodeMemory (sessionId : String) (c : EpisodeCandidate) : NewMemory :=
  { id := memoryId c.content, tier := .episodic, origin := .agent, text := c.content, keywords := none
    importance := c.importance, contentHash := hashHex c.content, prefKey := none, source := some sessionId }

namespace FlushRun

variable (q : FlushRun) (U : Unicode)

def candidates (entries : List Entry) : List EpisodeCandidate :=
  extractEpisodeCandidates q.fl q.toLowercase (entries.map fun e => { role := e.role, content := e.content })

/-- One round of the loop, with the number of candidates written. -/
def flushOne (st : MemDb × Nat) (c : EpisodeCandidate × Nat) : MemDb × Nat :=
  if q.commits c.2 then (st.1.upsertMemory U (episodeMemory q.sessionId c.1) (q.now c.2), st.2 + 1) else st

def flushEpisodic (entries : List Entry) (db : MemDb) : MemDb × Nat :=
  (q.candidates entries).zipIdx.foldl (q.flushOne U) (db, 0)

end FlushRun

/-! ## Writes -/

/-- Some writes, each with its time. -/
def MemDb.upserts (U : Unicode) (ms : List (NewMemory × Int)) (db : MemDb) : MemDb :=
  ms.foldl (fun db m => db.upsertMemory U m.1 m.2) db

/-- The last of the writes to an id. -/
def lastWrite (ms : List (NewMemory × Int)) (id : String) : Option NewMemory :=
  ((ms.map (·.1)).filter (·.id = id)).getLast?

section Writes

variable {U : Unicode} {db : MemDb}

theorem sound_upserts (h : db.Sound U) (ms : List (NewMemory × Int)) : (db.upserts U ms).Sound U := by
  unfold MemDb.upserts
  induction ms generalizing db with
  | nil => exact h
  | cons m ms ih => exact ih (MemDb.sound_upsertMemory h m.1 m.2)

theorem lastWrite_cons (m : NewMemory × Int) (ms : List (NewMemory × Int)) (id : String) :
    lastWrite (m :: ms) id = (lastWrite ms id).or (if m.1.id = id then some m.1 else none) := by
  unfold lastWrite
  rw [List.map_cons, List.filter_cons]
  by_cases hid : m.1.id = id
  · rw [if_pos (decide_eq_true hid), if_pos hid, List.getLast?_cons]
    cases ((ms.map (·.1)).filter (·.id = id)).getLast? <;> rfl
  · rw [if_neg (by simpa using hid), if_neg hid, Option.or_none]

/-- A row has the contents of the last write to its id; its tier and its origin stay. -/
theorem mem_upserts (ms : List (NewMemory × Int)) {r : MemoryRow} (hr : r ∈ db.memory) :
    (lastWrite ms r.id).elim r (MemoryRow.overwrite · r) ∈ (db.upserts U ms).memory := by
  unfold MemDb.upserts
  induction ms generalizing db r with
  | nil => exact hr
  | cons m ms ih =>
    have hrow : (if r.id = m.1.id then r.overwrite m.1 else r) ∈ (db.upsertMemory U m.1 m.2).memory := by
      rw [MemDb.memory_upsertMemory]
      exact List.mem_append_left _ (List.mem_filterMap.2 ⟨r, hr, rfl⟩)
    have hrest := ih hrow
    rw [lastWrite_cons]
    by_cases hid : r.id = m.1.id
    · rw [if_pos hid] at hrest
      rw [if_pos hid.symm]
      have hsame : (r.overwrite m.1).id = r.id := rfl
      rw [hsame] at hrest
      -- what a later write leaves of an earlier one is nothing
      cases hlast : lastWrite ms r.id with
      | none =>
        rw [hlast] at hrest
        exact hrest
      | some m' =>
        rw [hlast] at hrest
        exact hrest
    · rw [if_neg hid] at hrest
      rw [if_neg fun heq => hid heq.symm, Option.or_none]
      exact hrest

end Writes

/-! ## The curated memories -/

/-- What a reader of a memory sees of it. -/
structure SameMemory (r r' : MemoryRow) : Prop where
  id : r'.id = r.id
  tier : r'.tier = r.tier
  text : r'.text = r.text
  importance : r'.importance = r.importance
  prefKey : r'.prefKey = r.prefKey
  origin : r'.origin = r.origin
  source : r'.source = r.source

/-- The curated memories are the same before and after. -/
def MemDb.FramesCurated (db after : MemDb) : Prop :=
  ∀ r ∈ db.memory, r.tier = .curated → ∃ r' ∈ after.memory, SameMemory r r'

namespace FlushRun

/-- The candidates that are written, in order, each with its time. -/
def written (q : FlushRun) (entries : List Entry) : List (EpisodeCandidate × Int) :=
  ((q.candidates entries).zipIdx.filter fun c => q.commits c.2).map fun c => (c.1, q.now c.2)

/-- The last of the written candidates whose text has this id. -/
def lastCandidate (q : FlushRun) (entries : List Entry) (id : String) : Option EpisodeCandidate :=
  (((q.written entries).map (·.1)).filter (memoryId ·.content = id)).getLast?

/-- Each curated memory that has the id of a written candidate looks like one already. -/
def Spares (q : FlushRun) (entries : List Entry) (db : MemDb) : Prop :=
  ∀ r ∈ db.memory, r.tier = .curated → ∀ c, q.lastCandidate entries r.id = some c →
    r.text = c.content ∧ r.importance = c.importance ∧ r.prefKey = none ∧ r.source = some q.sessionId

variable {q : FlushRun} {U : Unicode} {db : MemDb}

theorem foldl_flushOne (cands : List (EpisodeCandidate × Nat)) (st : MemDb × Nat) :
    (cands.foldl (q.flushOne U) st).1 =
      st.1.upserts U ((cands.filter fun c => q.commits c.2).map fun c =>
        (episodeMemory q.sessionId c.1, q.now c.2)) := by
  unfold MemDb.upserts
  induction cands generalizing st with
  | nil => rfl
  | cons c cands ih =>
    rw [List.foldl_cons, ih]
    unfold flushOne
    by_cases hcommits : q.commits c.2 = true
    · simp [hcommits]
    · simp [hcommits]

theorem flushEpisodic_fst (entries : List Entry) :
    (q.flushEpisodic U entries db).1 =
      db.upserts U ((q.written entries).map fun c => (episodeMemory q.sessionId c.1, c.2)) := by
  unfold flushEpisodic written
  rw [foldl_flushOne, List.map_map]
  rfl

theorem lastWrite_written (entries : List Entry) (id : String) :
    lastWrite ((q.written entries).map fun c => (episodeMemory q.sessionId c.1, c.2)) id =
      (q.lastCandidate entries id).map (episodeMemory q.sessionId) := by
  unfold lastWrite lastCandidate
  rw [List.map_map, ← List.getLast?_map, List.filter_map, List.filter_map, List.map_map]
  rfl

/-- A flush leaves the curated memories as they are exactly if those it writes to look like the episodes
already. -/
theorem flush_frames_iff (q : FlushRun) (U : Unicode) (entries : List Entry) (db : MemDb) (h : db.Sound U) :
    db.FramesCurated (q.flushEpisodic U entries db).1 ↔ q.Spares entries db := by
  have hrow : ∀ r ∈ db.memory, ((q.lastCandidate entries r.id).elim r fun c =>
      r.overwrite (episodeMemory q.sessionId c)) ∈ (q.flushEpisodic U entries db).1.memory := by
    intro r hr
    have := mem_upserts (U := U) ((q.written entries).map fun c => (episodeMemory q.sessionId c.1, c.2)) hr
    rw [lastWrite_written, ← flushEpisodic_fst] at this
    cases hlast : q.lastCandidate entries r.id with
    | none =>
      rw [hlast] at this
      exact this
    | some c =>
      rw [hlast] at this
      exact this
  have hsound : (q.flushEpisodic U entries db).1.Sound U := by
    rw [flushEpisodic_fst]
    exact sound_upserts h _
  constructor
  · intro hframes r hr htier c hlast
    obtain ⟨r', hr', hsame⟩ := hframes r hr htier
    have hover := hrow r hr
    rw [hlast] at hover
    obtain rfl := MemDb.eq_of_id hsound.ids hr' hover hsame.id
    exact ⟨hsame.text.symm, hsame.importance.symm, hsame.prefKey.symm, hsame.source.symm⟩
  · intro hspares r hr htier
    have hover := hrow r hr
    cases hlast : q.lastCandidate entries r.id with
    | none =>
      rw [hlast] at hover
      exact ⟨r, hover, rfl, rfl, rfl, rfl, rfl, rfl, rfl⟩
    | some c =>
      rw [hlast] at hover
      obtain ⟨htext, himportance, hprefKey, hsource⟩ := hspares r hr htier c hlast
      exact ⟨_, hover, rfl, rfl, htext.symm, himportance.symm, hprefKey.symm, rfl, hsource.symm⟩

/-- The nearest double to a number between a quarter and one. -/
def testRound (x : ℚ) : ℚ :=
  let unit : ℚ := if x < 1 / 2 then 18014398509481984 else 9007199254740992
  (x * unit + 1 / 2).floor / unit

/-- A flush in which every write goes through. -/
def testFlush : FlushRun :=
  { sessionId := "s", fl := testRound, toLowercase := List.map Char.toLower, now := fun _ => 0, commits := fun _ => true }

def berlinEntries : List Entry :=
  [(NewEntry.text "s" .user "I moved to Berlin" 4).toEntry 1, (NewEntry.text "s" .assistant "Noted." 1).toEntry 2]

/-- The episode of these entries, promoted, and then corrected by a merge. -/
def berlinActs : List MemDb.Act :=
  let id := memoryId "I moved to Berlin\n\nNoted."
  (testFlush.candidates berlinEntries).map (fun c => .commits (.upsert (episodeMemory "s" c) 0)) ++
    [.commits (.upsert (testMemory "e" .episodic "I moved on to Rome") 1), .commits (.promote id),
      .commits (.merge "e" id "I moved to Berlin, then to Rome" "h")]

theorem flush_frames_iff_berlin : ∃ db, Steps.exec (MemDb.step testUnicode) .empty berlinActs = some db ∧
    (db.FramesCurated (testFlush.flushEpisodic testUnicode berlinEntries db).1 ↔ testFlush.Spares berlinEntries db) := by
  obtain ⟨db, hdb⟩ := Option.isSome_iff_exists.1
    (show (Steps.exec (MemDb.step testUnicode) .empty berlinActs).isSome = true by decide +kernel)
  exact ⟨db, hdb, flush_frames_iff testFlush testUnicode berlinEntries db (MemDb.sound_of_run hdb)⟩

/-- A second flush of the same entries takes the correction back. -/
theorem flush_frames_fails_berlin : ∃ db, Steps.exec (MemDb.step testUnicode) .empty berlinActs = some db ∧
    ¬ db.FramesCurated (testFlush.flushEpisodic testUnicode berlinEntries db).1 := by
  have hrun : (Steps.exec (MemDb.step testUnicode) .empty berlinActs).map (fun db =>
      (db.memory.map (fun r => (r.tier, r.text)),
        (testFlush.flushEpisodic testUnicode berlinEntries db).1.memory.map (·.text))) =
      some ([(.curated, "I moved to Berlin, then to Rome")], ["I moved to Berlin\n\nNoted."]) := by
    decide +kernel
  obtain ⟨db, hdb, hresult⟩ := Option.map_eq_some_iff.1 hrun
  obtain ⟨hbefore, hafter⟩ := Prod.mk.inj hresult
  refine ⟨db, hdb, ?_⟩
  intro hframes
  obtain ⟨r, hr, hrow⟩ := List.mem_map.1 (hbefore ▸ List.mem_singleton_self _ :
    (Tier.curated, "I moved to Berlin, then to Rome") ∈ db.memory.map fun r => (r.tier, r.text))
  obtain ⟨htier, htext⟩ := Prod.mk.inj hrow
  obtain ⟨r', hr', hsame⟩ := hframes r hr htier
  have hold : r'.text = "I moved to Berlin\n\nNoted." := by
    have := List.mem_map_of_mem (f := MemoryRow.text) hr'
    rwa [hafter, List.mem_singleton] at this
  rw [hsame.text, htext] at hold
  exact absurd hold (by decide)

end FlushRun

end OhMyClaw
