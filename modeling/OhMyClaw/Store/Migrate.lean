import Mathlib.Algebra.Ring.Int.Defs
import Mathlib.Data.List.GetD
import Mathlib.Data.Rat.Defs
import OhMyClaw.Lib.Upgrade

/-!
# Migrations

The file behind the store: its tables, what they are declared as, and the version of the whole.  Each version adds
tables, indexes and columns, and a column that is added changes no row: a row is as long as it was when it was
written, and what stands behind its end reads as `NULL`.

    runMigrations           the opening of a store
    migrations_keep         any number of openers at once, any faults, and whatever is written meanwhile
    migrations_arrive       without faults one of them arrives
    migrations_refuse       a store of a later version is left alone
-/

namespace OhMyClaw

/-- A value of a row; a real one is taken as the number it stands for. -/
inductive SqlValue where
  | null
  | integer (n : Int)
  | real (q : ℚ)
  | text (s : String)
  | blob (bytes : List UInt8)
deriving DecidableEq, Repr

structure Column where
  name : String
  /-- Declared `NOT NULL`, or a number that SQLite gives to the row. -/
  notNull : Bool := false
  default : SqlValue := .null
deriving DecidableEq, Repr

structure TableDef where
  name : String
  /-- `CREATE VIRTUAL TABLE`: the rows are kept by a module. -/
  virtual : Bool := false
  columns : List Column
deriving DecidableEq, Repr

structure IndexDef where
  name : String
  table : String
  columns : List String
deriving DecidableEq, Repr

/-- The table `sqlite_master`. -/
structure Schema where
  tables : List TableDef
  indexes : List IndexDef
deriving DecidableEq, Repr

namespace TableDef

def names (t : TableDef) : List String :=
  t.columns.map (·.name)

end TableDef

namespace Schema

def empty : Schema := { tables := [], indexes := [] }

def table? (s : Schema) (name : String) : Option TableDef :=
  s.tables.find? (·.name = name)

def names (s : Schema) : List String :=
  s.tables.map (·.name) ++ s.indexes.map (·.name)

end Schema

/-- A statement that changes the schema. -/
inductive Ddl where
  | createTable (t : TableDef)
  | createIndex (i : IndexDef)
  | addColumn (table : String) (column : String)
deriving DecidableEq, Repr

def Ddl.exec (s : Schema) : Ddl → Option Schema
  | .createTable t => if t.name ∈ s.names then none else some { s with tables := s.tables ++ [t] }
  | .createIndex i => do
    let t ← s.table? i.table
    if i.name ∈ s.names ∨ t.virtual ∨ ¬ i.columns ⊆ t.names then none
    else some { s with indexes := s.indexes ++ [i] }
  | .addColumn name column => do
    let t ← s.table? name
    if t.virtual ∨ column ∈ t.names then none
    else some { s with tables := s.tables.map fun u =>
      if u.name = name then { u with columns := u.columns ++ [{ name := column }] } else u }

/-- `execute_batch`: up to the first statement that fails. -/
def executeBatch (s : Schema) (batch : List Ddl) : Option Schema :=
  batch.foldlM Ddl.exec s

inductive MigrationError where
  | sqlite
  | migration (text : String)
deriving DecidableEq, Repr

namespace Migrate

/-! ## The versions -/

def v1 : List Ddl :=
  [.createTable { name := "session", columns := [
    { name := "id" }, { name := "kind", notNull := true }, { name := "created_at", notNull := true },
    { name := "reset_at" }] },
  .createTable { name := "entry", columns := [
    { name := "id", notNull := true }, { name := "session_id", notNull := true }, { name := "seq", notNull := true },
    { name := "role", notNull := true }, { name := "content", notNull := true },
    { name := "tokens_est", notNull := true }, { name := "tool_calls" }, { name := "tool_call_id" },
    { name := "created_at", notNull := true }] },
  .createIndex { name := "idx_entry_session_seq", table := "entry", columns := ["session_id", "seq"] },
  .createTable { name := "memory", columns := [
    { name := "no", notNull := true }, { name := "id", notNull := true }, { name := "tier", notNull := true },
    { name := "origin", notNull := true }, { name := "text", notNull := true }, { name := "keywords" },
    { name := "importance", notNull := true, default := .real (1 / 2) }, { name := "created_at", notNull := true },
    { name := "last_used_at" }, { name := "use_count", notNull := true, default := .integer 0 },
    { name := "content_hash", notNull := true },
    { name := "injected_mark", notNull := true, default := .integer 0 }] },
  .createIndex { name := "idx_memory_tier_origin", table := "memory", columns := ["tier", "origin"] },
  .createTable { name := "memory_fts", virtual := true, columns := [{ name := "terms" }] },
  .createTable { name := "cron", columns := [
    { name := "id" }, { name := "expr", notNull := true }, { name := "prompt", notNull := true },
    { name := "tz", notNull := true }, { name := "next_at" }, { name := "last_fired_at" },
    { name := "enabled", notNull := true, default := .integer 1 }] },
  .createTable { name := "standing_intent", columns := [
    { name := "id" }, { name := "text", notNull := true }, { name := "keywords" }, { name := "trigger_vec" },
    { name := "scope" }, { name := "cooldown_secs", notNull := true, default := .integer 86400 },
    { name := "budget", notNull := true, default := .integer 3 },
    { name := "fired_count", notNull := true, default := .integer 0 }, { name := "last_fired_at" },
    { name := "expiry_at" }, { name := "created_at", notNull := true }] },
  .createTable { name := "task", columns := [
    { name := "id" }, { name := "kind", notNull := true }, { name := "state", notNull := true }, { name := "detail" },
    { name := "created_at", notNull := true }, { name := "updated_at", notNull := true }] },
  .createTable { name := "audit", columns := [
    { name := "id", notNull := true }, { name := "at", notNull := true }, { name := "actor", notNull := true },
    { name := "action", notNull := true }, { name := "payload" }, { name := "hash_prev" }, { name := "hash_self" }] },
  .createTable { name := "kv", columns := [{ name := "k" }, { name := "v", notNull := true }] }]

def v2 : List Ddl :=
  [.addColumn "memory" "pref_key",
    .createIndex { name := "idx_memory_pref_key", table := "memory", columns := ["pref_key"] }]

def v3 : List Ddl :=
  [.addColumn "memory" "source"]

def targetVersion : Nat := 3

def step (s : Schema) : Nat → Except MigrationError Schema
  | 1 => (executeBatch s v1).elim (.error .sqlite) .ok
  | 2 => (executeBatch s v2).elim (.error .sqlite) .ok
  | 3 => (executeBatch s v3).elim (.error .sqlite) .ok
  | other => .error (.migration s!"no migration step defined for version {other}")

end Migrate

/-! ## The file -/

abbrev SqlRow := List SqlValue

/-- The rows of each table are as they were written, in their order. -/
structure DbFile where
  /-- `PRAGMA user_version`. -/
  userVersion : Int
  schema : Schema
  rows : String → List SqlRow

namespace DbFile

def empty : DbFile := { userVersion := 0, schema := .empty, rows := fun _ => [] }

/-- `v as u32`. -/
def version (d : DbFile) : Nat :=
  (d.userVersion % 2 ^ 32).toNat

end DbFile

namespace Migrate

def newer (current : Nat) : MigrationError :=
  .migration s!"db version {current} is newer than target {targetVersion}; downgrade unsupported"

/-- One turn of the loop of `run_migrations`. -/
def transaction (next : Nat) (d : DbFile) : Except MigrationError DbFile := do
  let schema ← step d.schema next
  .ok { d with schema, userVersion := next }

/-- `while current < TARGET_VERSION`, with as many turns as are left. -/
def turns : Nat → DbFile → Except MigrationError DbFile
  | 0, d => .ok d
  | n + 1, d => do turns n (← transaction (targetVersion - n) d)

def runMigrations (d : DbFile) : Except MigrationError DbFile :=
  if targetVersion < d.version then .error (newer d.version) else turns (targetVersion - d.version) d

end Migrate

/-- What `oc doctor` asks of a store that it has opened. -/
def checkShape (d : DbFile) : Except String Unit :=
  let noFts := if "memory_fts" ∈ d.schema.names then [] else ["memory_fts 表（记忆全文索引）"]
  let noNumber := if (d.schema.table? "memory").any ("no" ∈ ·.names) then [] else ["memory.no 列（FTS 索引的关联键）"]
  let missing := noFts ++ noNumber
  if missing = [] then .ok () else .error ("、".intercalate missing)

/-! ## What is written meanwhile -/

namespace TableDef

variable (t : TableDef)

/-- The value of a column; a row does not hold the columns that came after it. -/
def read (row : SqlRow) (column : String) : SqlValue :=
  row.getD (t.names.idxOf column) .null

def defaultOf (column : String) : SqlValue :=
  ((t.columns.find? (·.name = column)).map (·.default)).getD .null

/-- The row that a statement stores which names these columns. -/
def fill (values : List (String × SqlValue)) : SqlRow :=
  t.columns.map fun c => (values.lookup c.name).getD c.default

/-- The row written anew, with all columns. -/
def rewrite (row : SqlRow) (column : String) (v : SqlValue) : SqlRow :=
  (t.names.map (t.read row)).set (t.names.idxOf column) v

def admits (row : SqlRow) : Bool :=
  t.columns.all fun c => !c.notNull || t.read row c.name ≠ .null

end TableDef

/-- A row as a statement reads it, by its columns. -/
abbrev Record := String → SqlValue

/-- A statement that writes rows, by any program that knows the table. -/
inductive SqlWrite where
  | insert (values : List (String × SqlValue))
  | update (rows : Record → Bool) (column : String) (v : SqlValue)
  | delete (rows : Record → Bool)

/-- What the statement makes of the rows; `none` where it fails. -/
def TableDef.write (t : TableDef) (rows : List SqlRow) : SqlWrite → Option (List SqlRow)
  | .insert values =>
    if values.all (·.1 ∈ t.names) && t.admits (t.fill values) then some (rows ++ [t.fill values]) else none
  | .update p column v =>
    let rows' := rows.map fun row => if p (t.read row) then t.rewrite row column v else row
    if column ∈ t.names ∧ (rows'.all t.admits) then some rows' else none
  | .delete p => some (rows.filter fun row => !p (t.read row))

namespace DbFile

def write (d : DbFile) (table : String) (w : SqlWrite) : Option DbFile := do
  let t ← d.schema.table? table
  if t.virtual then none
  else
    let rows ← t.write (d.rows table) w
    some { d with rows := Function.update d.rows table rows }

/-- What a statement finds in a table. -/
def contents (d : DbFile) (table : String) : List Record :=
  match d.schema.table? table with
  | some t => (d.rows table).map t.read
  | none => []

end DbFile

/-! ## What a change of the schema leaves -/

/-- The tables have kept their columns, and new ones behind them are `NULL`. -/
def Schema.Extends (s s' : Schema) : Prop :=
  ∀ name t, s.table? name = some t →
    ∃ more, s'.table? name = some { t with columns := t.columns ++ more } ∧ ∀ c ∈ more, c.default = .null

namespace Schema.Extends

variable {s s' s'' : Schema}

theorem of_tables (h : s'.tables = s.tables) : s.Extends s' := fun name t ht =>
  ⟨[], by simpa [table?, h] using ht, by simp⟩

theorem trans (h : s.Extends s') (h' : s'.Extends s'') : s.Extends s'' := by
  intro name t ht
  obtain ⟨more, ht', hmore⟩ := h name t ht
  obtain ⟨more', ht'', hmore'⟩ := h' name _ ht'
  refine ⟨more ++ more', by simpa using ht'', fun c hc => ?_⟩
  exact (List.mem_append.1 hc).elim (hmore c) (hmore' c)

end Schema.Extends

theorem exec_extends {s s' : Schema} {ddl : Ddl} (h : ddl.exec s = some s') : s.Extends s' := by
  cases ddl with
  | createTable t =>
    simp only [Ddl.exec, Option.ite_none_left_eq_some, Option.some.injEq] at h
    obtain ⟨-, rfl⟩ := h
    intro name u hu
    refine ⟨[], ?_, by simp⟩
    have hfind : s.tables.find? (·.name = name) = some u := hu
    simp [Schema.table?, List.find?_append, hfind]
  | createIndex i =>
    obtain ⟨t, -, h⟩ := Option.bind_eq_some_iff.1 h
    simp only [Option.ite_none_left_eq_some, Option.some.injEq] at h
    obtain ⟨-, rfl⟩ := h
    exact .of_tables rfl
  | addColumn table column =>
    obtain ⟨t, -, h⟩ := Option.bind_eq_some_iff.1 h
    simp only [Option.ite_none_left_eq_some, Option.some.injEq] at h
    obtain ⟨-, rfl⟩ := h
    intro name u hu
    have hname (v : TableDef) : (if v.name = table then { v with columns := v.columns ++ [{ name := column }] }
        else v : TableDef).name = v.name := by
      split <;> rfl
    have hfind : s.tables.find? (·.name = name) = some u := hu
    have hfind' : Schema.table? { s with tables := s.tables.map fun v =>
        if v.name = table then { v with columns := v.columns ++ [{ name := column }] } else v } name =
          some (if u.name = table then { u with columns := u.columns ++ [{ name := column }] } else u) := by
      rw [Schema.table?, List.find?_map]
      simp only [Function.comp_def, hname, hfind]
      rfl
    by_cases htable : u.name = table
    · exact ⟨[{ name := column }], by rw [hfind', if_pos htable], by simp⟩
    · exact ⟨[], by rw [hfind', if_neg htable, List.append_nil], by simp⟩

theorem executeBatch_extends {batch : List Ddl} {s s' : Schema} (h : executeBatch s batch = some s') :
    s.Extends s' := by
  induction batch generalizing s with
  | nil =>
    obtain rfl : s = s' := Option.some.inj h
    exact .of_tables rfl
  | cons ddl batch ih =>
    obtain ⟨s₁, hddl, h⟩ := Option.bind_eq_some_iff.1 (by simpa [executeBatch, List.foldlM_cons] using h)
    exact (exec_extends hddl).trans (ih h)

namespace Migrate

theorem step_extends {s s' : Schema} {version : Nat} (h : step s version = .ok s') : s.Extends s' := by
  unfold step at h
  split at h
  · cases hbatch : executeBatch s v1 <;> rw [hbatch] at h <;> cases h
    exact executeBatch_extends hbatch
  · cases hbatch : executeBatch s v2 <;> rw [hbatch] at h <;> cases h
    exact executeBatch_extends hbatch
  · cases hbatch : executeBatch s v3 <;> rw [hbatch] at h <;> cases h
    exact executeBatch_extends hbatch
  · cases h

/-- The schema of each version. -/
def shape : Nat → Schema
  | 0 => .empty
  | n + 1 => (step (shape n) (n + 1)).toOption.getD .empty

theorem step_shape : ∀ n < targetVersion, step (shape n) (n + 1) = .ok (shape (n + 1)) := by
  decide +kernel

/-- A step that has been done fails. -/
theorem step_stale : ∀ n ≤ targetVersion, ∀ c < n, step (shape n) (c + 1) = .error .sqlite := by
  decide +kernel

theorem shape_extends {n m : Nat} (hle : n ≤ m) (hm : m ≤ targetVersion) : (shape n).Extends (shape m) := by
  induction m, hle using Nat.le_induction with
  | base => exact .of_tables rfl
  | succ m hle ih => exact (ih (Nat.le_of_succ_le hm)).trans (step_extends (step_shape m hm))

end Migrate

/-! ## What is to be read -/

namespace TableDef

variable {t : TableDef} {row : SqlRow}

theorem read_of_not_mem {c : String} (hrow : row.length ≤ t.columns.length) (hc : c ∉ t.names) :
    t.read row c = .null := by
  unfold read
  exact List.getD_eq_default _ _ (by rw [List.idxOf_eq_length hc]; simpa [names] using hrow)

/-- A row reads the same through the columns that were added behind it. -/
theorem read_append (more : List Column) (hrow : row.length ≤ t.columns.length) :
    { t with columns := t.columns ++ more }.read row = t.read row := by
  funext c
  by_cases hc : c ∈ t.names
  · have hnames : { t with columns := t.columns ++ more }.names = t.names ++ more.map (·.name) := by
      simp [names]
    simp only [read, hnames, List.idxOf_append_of_mem hc]
  · rw [read_of_not_mem hrow hc]
    have hle : row.length ≤ { t with columns := t.columns ++ more }.names.idxOf c := by
      have hnames : { t with columns := t.columns ++ more }.names = t.names ++ more.map (·.name) := by
        simp [names]
      rw [hnames, List.idxOf_append_of_notMem hc]
      have : t.names.length = t.columns.length := List.length_map _
      omega
    exact List.getD_eq_default _ _ hle

theorem defaultOf_append (more : List Column) (hmore : ∀ c ∈ more, c.default = .null) :
    { t with columns := t.columns ++ more }.defaultOf = t.defaultOf := by
  funext column
  simp only [defaultOf, List.find?_append]
  cases t.columns.find? (·.name = column) with
  | some c => rfl
  | none =>
    cases hfind : more.find? (·.name = column) with
    | some c => simp [hmore c (List.mem_of_find?_eq_some hfind)]
    | none => rfl

theorem getElem?_idxOf (c : String) : t.columns[t.names.idxOf c]? = t.columns.find? (·.name = c) := by
  rw [List.find?_eq_getElem?_findIdx, names, List.idxOf, List.findIdx_map]
  rfl

theorem length_fill (values : List (String × SqlValue)) : (t.fill values).length = t.columns.length :=
  List.length_map _

theorem read_fill {values : List (String × SqlValue)} (hvalues : values.all (·.1 ∈ t.names)) :
    t.read (t.fill values) = fun c => (values.lookup c).getD (t.defaultOf c) := by
  funext c
  by_cases hc : c ∈ t.names
  · obtain ⟨column, hcolumn, rfl⟩ := List.mem_map.1 hc
    obtain ⟨first, hfirst⟩ : ∃ first, t.columns.find? (·.name = column.name) = some first :=
      Option.isSome_iff_exists.1 (List.find?_isSome.2 ⟨column, hcolumn, by simp⟩)
    have hname : first.name = column.name := by simpa using List.find?_some hfirst
    simp [read, fill, defaultOf, getElem?_idxOf, hfirst, hname, List.getD_eq_getElem?_getD]
  · have hlookup : values.lookup c = none := by
      rw [List.lookup_eq_none_iff]
      intro p hp
      have hmem : p.1 ∈ t.names := by simpa using List.all_eq_true.1 hvalues p hp
      have hne : c ≠ p.1 := fun heq => hc (heq ▸ hmem)
      simpa using hne
    have hdefault : t.columns.find? (·.name = c) = none := by
      rw [List.find?_eq_none]
      intro column hcolumn
      have hne : column.name ≠ c := fun heq => hc (heq ▸ List.mem_map_of_mem hcolumn)
      simpa using hne
    rw [read_of_not_mem (Nat.le_of_eq (length_fill values)) hc, hlookup]
    simp [defaultOf, hdefault]

theorem length_rewrite (row : SqlRow) (c : String) (v : SqlValue) :
    (t.rewrite row c v).length = t.columns.length := by
  simp [rewrite, names]

theorem read_rewrite {c : String} (v : SqlValue) (hrow : row.length ≤ t.columns.length) (hc : c ∈ t.names) :
    t.read (t.rewrite row c v) = Function.update (t.read row) c v := by
  funext c'
  by_cases hc' : c' ∈ t.names
  · have hlt : t.names.idxOf c' < t.names.length := List.idxOf_lt_length_iff.2 hc'
    by_cases heq : c' = c
    · subst heq
      simp [read, rewrite, hlt, List.getD_eq_getElem?_getD]
    · have hne : t.names.idxOf c ≠ t.names.idxOf c' := fun h => heq ((List.idxOf_inj hc).1 h).symm
      rw [Function.update_of_ne heq]
      simp [read, rewrite, hlt, hne, List.getD_eq_getElem?_getD]
  · have hne : c' ≠ c := fun heq => hc' (heq ▸ hc)
    rw [Function.update_of_ne hne, read_of_not_mem hrow hc',
      read_of_not_mem (Nat.le_of_eq (length_rewrite row c v)) hc']

end TableDef

/-- What a statement does to what is to be read of its table. -/
def SqlWrite.apply (defaults : String → SqlValue) (records : List Record) : SqlWrite → List Record
  | .insert values => records ++ [fun c => (values.lookup c).getD (defaults c)]
  | .update p column v => records.map fun r => if p r then Function.update r column v else r
  | .delete p => records.filter fun r => !p r

theorem write_apply {t : TableDef} {rows rows' : List SqlRow} {w : SqlWrite}
    (hrows : ∀ row ∈ rows, row.length ≤ t.columns.length) (h : t.write rows w = some rows') :
    (∀ row ∈ rows', row.length ≤ t.columns.length) ∧
      rows'.map t.read = w.apply t.defaultOf (rows.map t.read) := by
  cases w with
  | insert values =>
    simp only [TableDef.write, Option.ite_none_right_eq_some, Bool.and_eq_true, Option.some.injEq] at h
    obtain ⟨⟨hvalues, -⟩, rfl⟩ := h
    refine ⟨fun row hrow => ?_, by simp [SqlWrite.apply, TableDef.read_fill hvalues]⟩
    obtain hrow | hrow := List.mem_append.1 hrow
    · exact hrows row hrow
    · obtain rfl := List.mem_singleton.1 hrow
      exact Nat.le_of_eq (TableDef.length_fill values)
  | update p column v =>
    simp only [TableDef.write, Option.ite_none_right_eq_some, Option.some.injEq] at h
    obtain ⟨⟨hcolumn, -⟩, rfl⟩ := h
    constructor
    · intro row hrow
      obtain ⟨row₀, hrow₀, rfl⟩ := List.mem_map.1 hrow
      split
      · exact Nat.le_of_eq (TableDef.length_rewrite _ _ _)
      · exact hrows row₀ hrow₀
    · simp only [SqlWrite.apply, List.map_map]
      refine List.map_congr_left fun row hrow => ?_
      simp only [Function.comp_apply]
      split
      · exact TableDef.read_rewrite v (hrows row hrow) hcolumn
      · rfl
  | delete p =>
    obtain rfl := Option.some.inj h
    refine ⟨fun row hrow => hrows row (List.mem_of_mem_filter hrow), ?_⟩
    rw [SqlWrite.apply, List.filter_map]
    rfl

/-! ## The store and its openers -/

open Migrate in
/-- A store as the versions of this program have left it. -/
structure DbFile.Sound (d : DbFile) : Prop where
  known : ∃ v ≤ targetVersion, d.userVersion = v
  schema : d.schema = shape d.version
  rows : ∀ name t, d.schema.table? name = some t → ∀ row ∈ d.rows name, row.length ≤ t.columns.length
  noRows : ∀ name, d.schema.table? name = none → d.rows name = []

theorem DbFile.version_of_eq {d : DbFile} {v : Nat} (hv : v ≤ Migrate.targetVersion) (h : d.userVersion = v) :
    d.version = v := by
  unfold Migrate.targetVersion at hv
  unfold version
  rw [h]
  omega

theorem DbFile.sound_empty : DbFile.empty.Sound where
  known := ⟨0, by decide, rfl⟩
  schema := rfl
  rows _ _ _ _ hrow := by cases hrow
  noRows _ _ := rfl

namespace Migrate

/-- The contents of all tables. -/
abbrev Contents := String → List Record

/-- What columns hold that a statement does not name. -/
def defaults (table : String) : String → SqlValue :=
  (((shape targetVersion).table? table).map TableDef.defaultOf).getD fun _ => .null

/-- A statement as it is meant: it knows nothing of versions. -/
def Contents.apply (contents : Contents) (w : String × SqlWrite) : Contents :=
  Function.update contents w.1 (w.2.apply (defaults w.1) (contents w.1))

def plan : Upgrade.Plan DbFile (String × SqlWrite) MigrationError where
  target := targetVersion
  version := DbFile.version
  upgrade := transaction
  write w d := d.write w.1 w.2
  tooNew := newer
  fault := .sqlite

theorem runMigrations_eq : runMigrations = plan.run := by
  have hturns : ∀ n d, turns n d = plan.turns n d := by
    intro n
    induction n with
    | zero => exact fun _ => rfl
    | succ n ih =>
      intro d
      have hbind : turns (n + 1) d = (transaction (targetVersion - n) d).bind (turns n) := rfl
      rw [hbind, funext ih]
      rfl
  funext d
  simp only [runMigrations, Upgrade.Plan.run, hturns]
  rfl

/-- What was to be read is to be read after any change of the schema. -/
theorem contents_extends {d : DbFile} {s : Schema} {v : Int} (hd : d.Sound) (h : d.schema.Extends s) :
    ({ d with schema := s, userVersion := v } : DbFile).contents = d.contents := by
  funext name
  cases htable : d.schema.table? name with
  | none =>
    have hrows := hd.noRows name htable
    simp only [DbFile.contents, htable, hrows, List.map_nil]
    split <;> rfl
  | some t =>
    obtain ⟨more, htable', -⟩ := h name t htable
    simp only [DbFile.contents, htable, htable']
    exact List.map_congr_left fun row hrow => TableDef.read_append more (hd.rows name t htable row hrow)

theorem transaction_raise {d : DbFile} (hd : d.Sound) (hlt : d.version < targetVersion) :
    ∃ d', transaction (d.version + 1) d = .ok d' ∧ d'.Sound ∧ d'.version = d.version + 1 ∧
      d'.contents = d.contents := by
  have hstep := step_shape _ hlt
  have hextends := hd.schema ▸ step_extends hstep
  obtain ⟨d', hd'⟩ : ∃ d' : DbFile, d' = { d with schema := shape (d.version + 1), userVersion := (d.version + 1 : Nat) } :=
    ⟨_, rfl⟩
  have hversion : d'.version = d.version + 1 := DbFile.version_of_eq hlt (by rw [hd'])
  refine ⟨d', ?_, ⟨⟨d.version + 1, hlt, by rw [hd']⟩, by rw [hversion, hd'], ?_, ?_⟩, hversion, ?_⟩
  · rw [transaction, hd.schema, hstep, hd']
    rfl
  · intro name t ht row hrow
    rw [hd'] at ht hrow
    cases htable : d.schema.table? name with
    | none =>
      rw [hd.noRows name htable] at hrow
      cases hrow
    | some t₀ =>
      obtain ⟨more, htable', -⟩ := hextends name t₀ htable
      obtain rfl := Option.some.inj (htable'.symm.trans ht)
      have := hd.rows name t₀ htable row hrow
      simp only [List.length_append]
      omega
  · intro name hname
    rw [hd'] at hname ⊢
    cases htable : d.schema.table? name with
    | none => exact hd.noRows name htable
    | some t₀ =>
      obtain ⟨more, htable', -⟩ := hextends name t₀ htable
      rw [htable'] at hname
      cases hname
  · rw [hd']
    exact contents_extends hd hextends

theorem defaults_eq {d : DbFile} (hd : d.Sound) {name : String} {t : TableDef} (h : d.schema.table? name = some t) :
    defaults name = t.defaultOf := by
  obtain ⟨v, hv, hversion⟩ := hd.known
  have hle : d.version ≤ targetVersion := by rwa [DbFile.version_of_eq hv hversion]
  rw [hd.schema] at h
  obtain ⟨more, htable, hmore⟩ := shape_extends hle (Nat.le_refl _) name t h
  rw [defaults, htable]
  exact TableDef.defaultOf_append more hmore

theorem write_cases {d d' : DbFile} {table : String} {w : SqlWrite} (h : d.write table w = some d') :
    ∃ t rows, d.schema.table? table = some t ∧ t.write (d.rows table) w = some rows ∧
      d' = { d with rows := Function.update d.rows table rows } := by
  obtain ⟨t, ht, h⟩ := Option.bind_eq_some_iff.1 h
  simp only [Option.ite_none_left_eq_some] at h
  obtain ⟨rows, hrows, h⟩ := Option.bind_eq_some_iff.1 h.2
  exact ⟨t, rows, ht, hrows, (Option.some.inj h).symm⟩

theorem write_sound {d d' : DbFile} {table : String} {w : SqlWrite} (hd : d.Sound) (h : d.write table w = some d') :
    d'.Sound ∧ d'.version = d.version ∧ d'.contents = Contents.apply d.contents (table, w) := by
  obtain ⟨t, rows, ht, hrows, rfl⟩ := write_cases h
  obtain ⟨hlength, hread⟩ := write_apply (hd.rows table t ht) hrows
  refine ⟨⟨hd.known, hd.schema, fun name u hu row hrow => ?_, fun name hname => ?_⟩, rfl, ?_⟩
  · by_cases hname : name = table
    · subst hname
      obtain rfl : t = u := Option.some.inj (ht.symm.trans hu)
      simp only [Function.update_self] at hrow
      exact hlength row hrow
    · simp only [Function.update_of_ne hname] at hrow
      exact hd.rows name u hu row hrow
  · have hne : name ≠ table := by
      rintro rfl
      rw [ht] at hname
      cases hname
    simp only [Function.update_of_ne hne]
    exact hd.noRows name hname
  · funext name
    by_cases hname : name = table
    · subst hname
      simp only [Contents.apply, Function.update_self, DbFile.contents, ht, hread, defaults_eq hd ht]
    · simp only [Contents.apply, DbFile.contents, Function.update_of_ne hname]

theorem plan_lawful : Upgrade.Lawful plan DbFile.Sound DbFile.contents Contents.apply where
  known d hd := by
    obtain ⟨v, hv, hversion⟩ := hd.known
    exact (DbFile.version_of_eq hv hversion).trans_le hv
  raise d hd hlt := transaction_raise hd hlt
  stale d c hd hlt := by
    obtain ⟨v, hv, hversion⟩ := hd.known
    have hle : d.version ≤ targetVersion := (DbFile.version_of_eq hv hversion).trans_le hv
    refine ⟨.sqlite, ?_⟩
    show transaction (c + 1) d = _
    rw [transaction, hd.schema, step_stale _ hle c hlt]
    rfl
  write d w d' hd h := write_sound hd h

theorem checkShape_sound {d : DbFile} (hd : d.Sound) (h : d.version = targetVersion) : checkShape d = .ok () := by
  have hschema : d.schema = shape targetVersion := h ▸ hd.schema
  have hfts : "memory_fts" ∈ (shape targetVersion).names := by decide +kernel
  have hnumber : ((shape targetVersion).table? "memory").any ("no" ∈ ·.names) := by decide +kernel
  simp [checkShape, hschema, hfts, hnumber]

/-! ## Runs -/

open Upgrade

variable {d : DbFile} {acts : List (Act (String × SqlWrite))} {w : World DbFile MigrationError}

/-- Whoever opens the store, in whatever order, with whatever faults, and whatever is written meanwhile: the store is
as the versions of this program leave it, its version never falls, every table holds what the writes alone have made
of it, and an opener has arrived only at a store of its version and shape. -/
theorem migrations_keep (hd : d.Sound) (h : Steps.exec plan.step (start d) acts = some w) :
    w.store.Sound ∧
      Steps.AllSteps plan.step (fun w _ w' => w.store.version ≤ w'.store.version) (start d) acts ∧
      w.store.contents = (acts.filterMap Act.written).foldl Contents.apply d.contents ∧
      (.done ∈ w.openers → w.store.version = targetVersion ∧ checkShape w.store = .ok ()) := by
  obtain ⟨hw, -, hcontents⟩ := kept plan_lawful hd h
  refine ⟨hw.fits, rising plan_lawful hd acts, hcontents, fun hdone => ?_⟩
  have hversion : w.store.version = targetVersion := hw.behind .done hdone
  exact ⟨hversion, checkShape_sound hw.fits hversion⟩

/-- A store of the first version, with nothing in it yet. -/
def testFile : DbFile := { userVersion := 1, schema := shape 1, rows := fun _ => [] }

theorem testFile_sound : testFile.Sound where
  known := ⟨1, by decide, rfl⟩
  schema := rfl
  rows _ _ _ _ hrow := by cases hrow
  noRows _ _ := rfl

/-- A memory, as a program of the first version writes it. -/
def testMemory : SqlWrite :=
  .insert [("no", .integer 1), ("id", .text "old-1"), ("tier", .text "curated"), ("origin", .text "owner"),
    ("text", .text "我用 VS Code"), ("created_at", .integer 1000), ("content_hash", .text "h1")]

/-- Two openers read the first version; the one takes both steps, the other finds its step taken. -/
def testActs : List (Act (String × SqlWrite)) :=
  [.open, .open, .go 0, .go 1, .write ("memory", testMemory), .go 0, .go 1, .go 0]

theorem testActs_run :
    (Steps.exec plan.step (start testFile) testActs).map (fun w => (w.openers, (w.store.contents "memory").map
      fun r => [r "text", r "use_count", r "pref_key", r "source"])) =
      some ([.done, .failed .sqlite], [[.text "我用 VS Code", .integer 0, .null, .null]]) := by
  decide +kernel

theorem migrations_keep_sample : ∃ w, Steps.exec plan.step (start testFile) testActs = some w ∧
    w.store.version = 3 ∧ w.store.contents = Contents.apply testFile.contents ("memory", testMemory) := by
  obtain ⟨w, hw, hrun⟩ := Option.map_eq_some_iff.1 testActs_run
  obtain ⟨hopeners, -⟩ := Prod.mk.inj hrun
  obtain ⟨-, -, hcontents, hdone⟩ := migrations_keep testFile_sound hw
  exact ⟨w, hw, (hdone (by rw [hopeners]; exact List.mem_cons_self)).1, hcontents⟩

/-- An opener that has not ended can go on, and takes four steps at most.  Who has failed met a fault, or had been
overtaken by another that took the same step; and where none meets a fault, once all have ended the store is of
their version, and one of them has arrived. -/
theorem migrations_arrive (hd : d.Sound) (h : Steps.exec plan.step (start d) acts = some w) :
    (∀ i o, w.openers[i]? = some o → o.ended = false → (plan.step w (.go i)).isSome) ∧
      (∀ i, acts.countP (Act.goes i) ≤ 4) ∧
      (∀ i e, w.openers[i]? = some (.failed e) → .fault i ∈ acts ∨ Overtaken plan d acts i) ∧
      ((∀ a ∈ acts, a.calm) → w.openers ≠ [] → (∀ o ∈ w.openers, o.ended) →
        w.store.version = targetVersion ∧ .done ∈ w.openers) :=
  ⟨fun _ _ hi ho => go_isSome hi ho, goes_le plan_lawful hd h, fun _ _ hi => overtaken plan_lawful hd h hi,
    fun hcalm => arrives plan_lawful hd hcalm h⟩

theorem migrations_arrive_sample : ∃ w, Steps.exec plan.step (start testFile) testActs = some w ∧
    w.store.version = targetVersion ∧ Overtaken plan testFile testActs 1 := by
  obtain ⟨w, hw, hrun⟩ := Option.map_eq_some_iff.1 testActs_run
  obtain ⟨hopeners, -⟩ := Prod.mk.inj hrun
  have hcalm : ∀ a ∈ testActs, a.calm := List.forall_iff_forall_mem.1 (by decide +kernel)
  have hended : ∀ o ∈ w.openers, o.ended := by
    rw [hopeners]
    exact List.forall_iff_forall_mem.1 (by decide)
  obtain ⟨-, -, hfailed, harrive⟩ := migrations_arrive testFile_sound hw
  refine ⟨w, hw, (harrive hcalm (by simp [hopeners]) hended).1, ?_⟩
  refine (hfailed 1 .sqlite (by simp [hopeners])).resolve_left fun hfault => ?_
  exact absurd (hcalm _ hfault) (by decide)

/-- An opener that is alone does what `runMigrations` says. -/
theorem migrations_alone {n : Nat}
    (h : Steps.exec plan.step (start d) (.open :: List.replicate n (.go 0)) = some w) :
    ∃ o, w.openers = [o] ∧ o.Onto plan w.store (runMigrations d) := by
  rw [runMigrations_eq]
  exact alone h

/-- A store of a later version is left as it is, by every opener, and none arrives. -/
theorem migrations_refuse (hnew : targetVersion < d.version)
    (h : Steps.exec plan.step (start d) acts = some w) :
    w.store.version = d.version ∧ w.store.schema = d.schema ∧
      ∀ o ∈ w.openers, o.Refused plan d.version := by
  refine @refused _ _ _ _ plan d DbFile.schema hnew (fun b s s' hb => ?_) acts w h
  obtain ⟨t, rows, -, -, rfl⟩ := write_cases hb
  exact ⟨rfl, rfl⟩

end Migrate

end OhMyClaw
