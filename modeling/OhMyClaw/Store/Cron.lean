import Mathlib.Data.List.Sort

/-!
# The table of cron tasks

The primary key is part of the table; an `UPDATE` or a `DELETE` of an id meets one row at most.

    mem_cronList       the list shows every row
    cronRm_fst         a deletion tells whether there was a row
-/

namespace OhMyClaw

structure NewCron where
  id : String
  expr : String
  prompt : String
  tz : String
  nextAt : Option Int
deriving DecidableEq, Repr

structure CronRow where
  id : String
  expr : String
  prompt : String
  tz : String
  nextAt : Option Int
  lastFiredAt : Option Int
  enabled : Bool
deriving DecidableEq, Repr

/-- The table `cron`. -/
structure CronDb where
  crons : List CronRow
  primaryKey : (crons.map (·.id)).Nodup

namespace CronDb

def empty : CronDb := { crons := [], primaryKey := List.nodup_nil }

def newRow (c : NewCron) : CronRow :=
  { id := c.id, expr := c.expr, prompt := c.prompt, tz := c.tz, nextAt := c.nextAt, lastFiredAt := none,
    enabled := true }

/-- Refused if the id is taken. -/
def cronAdd (c : NewCron) (db : CronDb) : Option CronDb :=
  if h : c.id ∈ db.crons.map (·.id) then none
  else some
    { crons := db.crons ++ [newRow c]
      primaryKey := by
        rw [List.map_append]
        exact List.Nodup.append db.primaryKey (List.nodup_singleton _) (by simpa [newRow] using h) }

/-- `ORDER BY id`. -/
def cronList (db : CronDb) : List CronRow := db.crons.insertionSort fun a b => a.id ≤ b.id

/-- Whether a row was deleted, and the table without it. -/
def cronRm (id : String) (db : CronDb) : Bool × CronDb :=
  (db.crons.any (·.id = id),
    { crons := db.crons.filter (·.id ≠ id)
      primaryKey := List.Nodup.sublist (List.filter_sublist.map _) db.primaryKey })

def fireRow (id : String) (firedAt : Int) (nextAt : Option Int) (r : CronRow) : CronRow :=
  if r.id = id then { r with lastFiredAt := some firedAt, nextAt } else r

@[simp] theorem id_fireRow (id : String) (firedAt : Int) (nextAt : Option Int) (r : CronRow) :
    (fireRow id firedAt nextAt r).id = r.id := by
  unfold fireRow
  split <;> rfl

def cronMarkFired (id : String) (firedAt : Int) (nextAt : Option Int) (db : CronDb) : CronDb where
  crons := db.crons.map (fireRow id firedAt nextAt)
  primaryKey := by
    have hids : (db.crons.map (fireRow id firedAt nextAt)).map (·.id) = db.crons.map (·.id) := by
      rw [List.map_map]
      exact List.map_congr_left fun r _ => id_fireRow id firedAt nextAt r
    rw [hids]
    exact db.primaryKey

/-! ## What the statements do -/

/-- A task of this id is in the table. -/
def Has (db : CronDb) (id : String) : Prop := ∃ r ∈ db.crons, r.id = id

theorem crons_cronAdd {c : NewCron} {db db' : CronDb} (h : db.cronAdd c = some db') :
    db'.crons = db.crons ++ [newRow c] := by
  unfold cronAdd at h
  split at h
  · simp at h
  · rw [← Option.some.inj h]

theorem mem_cronList {db : CronDb} {row : CronRow} : row ∈ db.cronList ↔ row ∈ db.crons :=
  List.mem_insertionSort _

theorem nodup_ids_cronList (db : CronDb) : (db.cronList.map (·.id)).Nodup := by
  unfold cronList
  rw [((List.perm_insertionSort _ _).map _).nodup_iff]
  exact db.primaryKey

theorem cronRm_fst {db : CronDb} {id : String} : (db.cronRm id).1 = true ↔ db.Has id := by
  simp [cronRm, Has]

theorem mem_cronRm {db : CronDb} {id : String} {r : CronRow} :
    r ∈ (db.cronRm id).2.crons ↔ r ∈ db.crons ∧ r.id ≠ id := by
  simp [cronRm]

theorem has_cronRm {db : CronDb} {id k : String} : (db.cronRm id).2.Has k ↔ db.Has k ∧ k ≠ id := by
  constructor
  · rintro ⟨r, hr, rfl⟩
    obtain ⟨hr, hne⟩ := mem_cronRm.1 hr
    exact ⟨⟨r, hr, rfl⟩, hne⟩
  · rintro ⟨⟨r, hr, rfl⟩, hne⟩
    exact ⟨r, mem_cronRm.2 ⟨hr, hne⟩, rfl⟩

theorem mem_cronMarkFired {db : CronDb} {id : String} {firedAt : Int} {nextAt : Option Int} {r' : CronRow} :
    r' ∈ (db.cronMarkFired id firedAt nextAt).crons ↔ ∃ r ∈ db.crons, fireRow id firedAt nextAt r = r' :=
  List.mem_map

theorem has_cronAdd {c : NewCron} {db db' : CronDb} (h : db.cronAdd c = some db') {k : String} :
    db'.Has k ↔ db.Has k ∨ k = c.id := by
  unfold Has
  rw [crons_cronAdd h]
  simp [newRow, or_and_right, exists_or, eq_comm]

end CronDb

end OhMyClaw
