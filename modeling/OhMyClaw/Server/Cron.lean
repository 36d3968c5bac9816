import OhMyClaw.Lib.Ledger
import OhMyClaw.Lib.Steps
import OhMyClaw.Core.Cron
import OhMyClaw.Core.Proactive
import OhMyClaw.Proto.Frame
import OhMyClaw.Server.Session
import OhMyClaw.Store.Cron

/-!
# Cron tasks

Tasks are added by a method of the protocol or by the tool of the model.  The heartbeat scans the
table for tasks that are due and fires them one after the other; it never scans twice at a time.  A
task that fires once may also have a timer of its own.  Firing takes a turn of the model, so between
two writes of a scan or a timer everything else goes on.

    Sound               rows and snapshots belong to the tasks that were added, and timers to tasks
                        that fire once
    sound_of_run        in every state
-/

namespace OhMyClaw

structure CronCfg where
  zones : Zones
  defaultTz : String

/-- A database with one zone. -/
def testCron : CronCfg := { zones := fun name => if name = "UTC" then some fun _ => 0 else none, defaultTz := "UTC" }

/-! ## Adding -/

structure CronAddParams where
  expr : String
  prompt : String
  tz : String
deriving DecidableEq, Repr

/-- What the method writes; it stores a task also if the search for its next time fails. -/
def handleCronAdd (Z : Zones) (p : CronAddParams) (now : Int) (id : String) : Except ProtoError NewCron :=
  match nextFire Z p.expr now p.tz with
  | .ok nextAt => .ok { id, expr := p.expr, prompt := p.prompt, tz := p.tz, nextAt }
  | .error e => .error { kind := .badRequest, message := "cron 表达式非法: " ++ e.message }

/-- What the tool writes; it refuses a task whose next time is not found. -/
def cronAdd (cfg : CronCfg) (expr prompt : String) (tz : Option String) (now : Int) (id : String) :
    Except String NewCron :=
  let tz := ((tz.map fun t => String.ofList (RustStr.trim t.toList)).filter (· ≠ "")).getD cfg.defaultTz
  match nextFire cfg.zones expr now tz with
  | .error e => .error e.message
  | .ok none => .error ("表达式 \x60" ++ expr ++ "\x60 在未来一年内没有匹配时刻")
  | .ok (some nextAt) => .ok { id, expr, prompt, tz, nextAt := some nextAt }

def maxDelaySecs : Int := 30 * 86400

def preciseTimerHorizonSecs : Int := 3600

/-- A task that fires once, and whether it gets a timer. -/
def cronDelay (cfg : CronCfg) (secs : Int) (prompt : String) (now : Int) (id : String) :
    Except String (NewCron × Bool) :=
  if secs ≤ 0 then .error "延时必须为正整数秒"
  else if maxDelaySecs < secs then .error "延时上限 30 天；更久的请用重复表达式（op=add）"
  else
    .ok ({ id, expr := onceExpr, prompt, tz := cfg.defaultTz, nextAt := some (now + secs) },
      secs ≤ preciseTimerHorizonSecs)

/-- The method does not look whether there was a row. -/
def handleCronRm (id : String) (db : CronDb) : MethodOk × CronDb := (.empty, (db.cronRm id).2)

/-- The answer of the tool that says that the task is gone. -/
def removedText (id : String) : String := "已删除定时任务 id=" ++ id ++ "。"

def cronRemove (id : String) (db : CronDb) : String × CronDb :=
  let r := db.cronRm id
  (if r.1 then removedText id else "没有 id=" ++ id ++ " 的定时任务（可能已触发并自动清理）。", r.2)

/-! ## Firing -/

/-- A reminder, with the time its task was due, the clock of its scan or timer, and the time it went out. -/
structure Push where
  text : String
  slot : Option Int
  clock : Int
  sentAt : Int
deriving DecidableEq, Repr

inductive CronPhase where
  /-- A task that fires once is deleted first; whoever deletes it fires it. -/
  | claim
  /-- The turn of the model. -/
  | turn
  /-- The next time of a recurring task is to be written. -/
  | mark
deriving DecidableEq, Repr

/-- `fire_cron` on a row as it was read. -/
structure CronJob where
  row : CronRow
  now : Int
  phase : CronPhase
deriving DecidableEq, Repr

/-- A turn without an answer reminds as well. -/
def reminderText (row : CronRow) (answer : String) : String :=
  if RustStr.trim answer.toList = [] then "定时任务已触发：" ++ row.prompt else answer

namespace CronJob

def start (now : Int) (row : CronRow) : CronJob :=
  { row, now, phase := if isOnce row.expr then .claim else .turn }

/-- The next write of the job or its reminder, and what is left of the job. -/
def advance (Z : Zones) (answer : String) (clock : Int) (db : CronDb) (j : CronJob) :
    CronDb × Option Push × Option CronJob :=
  match j.phase with
  | .claim =>
    let r := db.cronRm j.row.id
    (r.2, none, if r.1 then some { j with phase := .turn } else none)
  | .turn =>
    (db, some { text := reminderText j.row answer, slot := j.row.nextAt, clock := j.now, sentAt := clock },
      if isOnce j.row.expr then none else some { j with phase := .mark })
  | .mark =>
    (db.cronMarkFired j.row.id j.now (nextFire Z j.row.expr j.now j.row.tz).toOption.join, none, none)

end CronJob

/-- A scan of the heartbeat between two of its steps. -/
structure CronScan where
  /-- The table, as it was when the scan began. -/
  rows : List CronRow
  /-- The tasks still to fire. -/
  due : List String
  now : Int
  job : Option CronJob
deriving DecidableEq, Repr

def CronScan.start (rows : List CronRow) (now : Int) : CronScan :=
  { rows, now, job := none
    due := evalDue ((rows.filter (·.enabled)).map fun r => (r.id, r.nextAt)) now }

inductive CronEvent where
  | pushed (p : Push)
  /-- A removal was acknowledged. -/
  | removed
deriving DecidableEq, Repr

/-- A timer sleeps until it has a job. -/
abbrev CronTimer := Option CronJob

structure CronWorld where
  db : CronDb
  /-- The clock of the machine. -/
  now : Int
  scan : Option CronScan
  timers : IdMap CronTimer
  /-- Removals whose answers are on their way. -/
  acks : List String
  /-- Histories: the tasks ever added, and what went out. -/
  added : List NewCron
  log : List (String × CronEvent)

namespace CronWorld

inductive Act where
  | tick (now : Int)
  | add (p : CronAddParams) (clock : Int) (id : String)
  | addTool (expr prompt : String) (tz : Option String) (clock : Int) (id : String)
  | delay (secs : Int) (prompt : String) (clock : Int) (id : String)
  | rm (id : String)
  | rmTool (id : String)
  /-- The answer to a removal reaches its sender. -/
  | ack (id : String)
  /-- The heartbeat has read the clock and reads the table. -/
  | beat (clock : Int)
  | scan (answer : String)
  | timer (id answer : String)
  | restart
deriving DecidableEq, Repr

def init (now : Int) : CronWorld :=
  { db := .empty, now, scan := none, timers := ∅, acks := [], added := [], log := [] }

/-- Nobody has used or named the id. -/
def Fresh (w : CronWorld) (id : String) : Prop :=
  id ∉ w.added.map (·.id) ∧ id ∉ w.acks ∧ id ∉ w.log.map (·.1)

instance (w : CronWorld) (id : String) : Decidable (w.Fresh id) := inferInstanceAs (Decidable (_ ∧ _ ∧ _))

/-- Write a new task. -/
def insert (w : CronWorld) (c : NewCron) : Option CronWorld :=
  (w.db.cronAdd c).map fun db => { w with db, added := w.added ++ [c] }

/-- What a job adds to the log. -/
def entries (id : String) (p : Option Push) : List (String × CronEvent) := (p.map fun p => (id, .pushed p)).toList

variable (cfg : CronCfg)

/-- A clock is read at the present or earlier, and new ids are fresh. -/
def step (w : CronWorld) : Act → Option CronWorld
  | .tick now => if now < w.now then none else some { w with now }
  | .add p clock id =>
    if w.now < clock ∨ ¬ w.Fresh id then none
    else
      match handleCronAdd cfg.zones p clock id with
      | .ok c => w.insert c
      | .error _ => some w
  | .addTool expr prompt tz clock id =>
    if w.now < clock ∨ ¬ w.Fresh id then none
    else
      match cronAdd cfg expr prompt tz clock id with
      | .ok c => w.insert c
      | .error _ => some w
  | .delay secs prompt clock id =>
    if w.now < clock ∨ ¬ w.Fresh id then none
    else
      match cronDelay cfg secs prompt clock id with
      | .ok (c, timer) =>
        (w.insert c).map fun w => if timer then { w with timers := w.timers.insert id none } else w
      | .error _ => some w
  | .rm id =>
    let r := handleCronRm id w.db
    some { w with db := r.2, acks := if r.1 = .empty then w.acks ++ [id] else w.acks }
  | .rmTool id =>
    let r := cronRemove id w.db
    some { w with db := r.2, acks := if r.1 = removedText id then w.acks ++ [id] else w.acks }
  | .ack id =>
    if id ∈ w.acks then some { w with acks := w.acks.erase id, log := w.log ++ [(id, .removed)] } else none
  | .beat clock =>
    if w.now < clock ∨ w.scan.isSome then none else some { w with scan := some (.start w.db.cronList clock) }
  | .scan answer =>
    match w.scan with
    | none => none
    | some sc =>
      match sc.job with
      | some j =>
        let r := j.advance cfg.zones answer w.now w.db
        some { w with db := r.1, log := w.log ++ entries j.row.id r.2.1, scan := some { sc with job := r.2.2 } }
      | none =>
        match sc.due with
        | [] => some { w with scan := none }
        | id :: due =>
          some { w with scan := some { sc with due, job := (sc.rows.find? (·.id = id)).map (.start sc.now) } }
  | .timer id answer =>
    match w.timers.lookup id with
    | none => none
    | some (some j) =>
      let r := j.advance cfg.zones answer w.now w.db
      some { w with db := r.1, log := w.log ++ entries j.row.id r.2.1
                    timers := if r.2.2.isSome then w.timers.insert id r.2.2 else w.timers.erase id }
    | some none =>
      match w.db.cronList.find? (·.id = id) with
      | some row =>
        if row.enabled then some { w with timers := w.timers.insert id (some (.start w.now row)) }
        else some { w with timers := w.timers.erase id }
      | none => some { w with timers := w.timers.erase id }
  | .restart => some { w with scan := none, timers := ∅ }

/-! ## What a step can do -/

/-- A task that a request adds, and whether it gets a timer. -/
inductive Adds (now : Int) : Act → NewCron → Bool → Prop
  | method {p : CronAddParams} {clock : Int} {id : String} {nextAt : Option Int} (hclock : clock ≤ now)
      (hnext : nextFire cfg.zones p.expr clock p.tz = .ok nextAt) :
      Adds now (.add p clock id) { id, expr := p.expr, prompt := p.prompt, tz := p.tz, nextAt } false
  | tool {expr prompt tz' : String} {tz : Option String} {clock : Int} {id : String} {nextAt : Int}
      (hclock : clock ≤ now) (hnext : nextFire cfg.zones expr clock tz' = .ok (some nextAt)) :
      Adds now (.addTool expr prompt tz clock id) { id, expr, prompt, tz := tz', nextAt := some nextAt } false
  | delay {secs clock : Int} {prompt id : String} {timer : Bool} :
      Adds now (.delay secs prompt clock id)
        { id, expr := onceExpr, prompt, tz := cfg.defaultTz, nextAt := some (clock + secs) } timer

inductive Moves (w : CronWorld) : Act → CronWorld → Prop
  | tick {now : Int} (hnow : w.now ≤ now) : Moves w (.tick now) { w with now }
  | refuse {p : CronAddParams} {clock : Int} {id : String} {e : CronParseError}
      (herror : nextFire cfg.zones p.expr clock p.tz = .error e) : Moves w (.add p clock id) w
  | refuseTool {expr prompt : String} {tz : Option String} {clock : Int} {id : String} :
      Moves w (.addTool expr prompt tz clock id) w
  | refuseDelay {secs : Int} {prompt : String} {clock : Int} {id : String} :
      Moves w (.delay secs prompt clock id) w
  | insert {a : Act} {c : NewCron} {timer : Bool} {db : CronDb} (hadds : Adds cfg w.now a c timer)
      (hfresh : w.Fresh c.id) (hdb : w.db.cronAdd c = some db) :
      Moves w a { w with db, added := w.added ++ [c]
                         timers := if timer then w.timers.insert c.id none else w.timers }
  | remove {a : Act} {id : String} {acks : List String} (ha : a = .rm id ∨ a = .rmTool id)
      (hacks : acks = w.acks ++ [id] ∨ acks = w.acks) :
      Moves w a { w with db := (w.db.cronRm id).2, acks }
  | ack {id : String} (hid : id ∈ w.acks) :
      Moves w (.ack id) { w with acks := w.acks.erase id, log := w.log ++ [(id, .removed)] }
  | beat {clock : Int} (hclock : clock ≤ w.now) (hscan : w.scan = none) :
      Moves w (.beat clock) { w with scan := some (.start w.db.cronList clock) }
  | scanJob {sc : CronScan} {j : CronJob} {answer : String} (hscan : w.scan = some sc) (hjob : sc.job = some j) :
      Moves w (.scan answer)
        { w with db := (j.advance cfg.zones answer w.now w.db).1
                 log := w.log ++ entries j.row.id (j.advance cfg.zones answer w.now w.db).2.1
                 scan := some { sc with job := (j.advance cfg.zones answer w.now w.db).2.2 } }
  | scanNext {sc : CronScan} {id answer : String} {due : List String} (hscan : w.scan = some sc)
      (hjob : sc.job = none) (hdue : sc.due = id :: due) :
      Moves w (.scan answer)
        { w with scan := some { sc with due, job := (sc.rows.find? (·.id = id)).map (.start sc.now) } }
  | scanEnd {sc : CronScan} {answer : String} (hscan : w.scan = some sc) (hjob : sc.job = none)
      (hdue : sc.due = []) : Moves w (.scan answer) { w with scan := none }
  | timerJob {id answer : String} {j : CronJob} (htimer : w.timers.lookup id = some (some j)) :
      Moves w (.timer id answer)
        { w with db := (j.advance cfg.zones answer w.now w.db).1
                 log := w.log ++ entries j.row.id (j.advance cfg.zones answer w.now w.db).2.1
                 timers := if (j.advance cfg.zones answer w.now w.db).2.2.isSome
                   then w.timers.insert id (j.advance cfg.zones answer w.now w.db).2.2 else w.timers.erase id }
  | timerWake {id answer : String} {row : CronRow} (htimer : w.timers.lookup id = some none)
      (hrow : row ∈ w.db.crons) (hid : row.id = id) :
      Moves w (.timer id answer) { w with timers := w.timers.insert id (some (.start w.now row)) }
  | timerEnd {id answer : String} (htimer : w.timers.lookup id = some none) :
      Moves w (.timer id answer) { w with timers := w.timers.erase id }
  | restart : Moves w .restart { w with scan := none, timers := ∅ }

variable {cfg}

theorem handleCronAdd_ok {Z : Zones} {p : CronAddParams} {now : Int} {id : String} {c : NewCron}
    (h : handleCronAdd Z p now id = .ok c) :
    ∃ nextAt, nextFire Z p.expr now p.tz = .ok nextAt ∧
      c = { id, expr := p.expr, prompt := p.prompt, tz := p.tz, nextAt } := by
  unfold handleCronAdd at h
  cases hnext : nextFire Z p.expr now p.tz with
  | error e => simp [hnext] at h
  | ok nextAt =>
    simp only [hnext, Except.ok.injEq] at h
    exact ⟨nextAt, rfl, h.symm⟩

theorem handleCronAdd_error {Z : Zones} {p : CronAddParams} {now : Int} {id : String} {err : ProtoError}
    (h : handleCronAdd Z p now id = .error err) : ∃ e, nextFire Z p.expr now p.tz = .error e := by
  unfold handleCronAdd at h
  cases hnext : nextFire Z p.expr now p.tz with
  | error e => exact ⟨e, rfl⟩
  | ok nextAt => simp [hnext] at h

theorem cronAdd_ok {expr prompt : String} {tz : Option String} {now : Int} {id : String} {c : NewCron}
    (h : cronAdd cfg expr prompt tz now id = .ok c) :
    ∃ tz' nextAt, nextFire cfg.zones expr now tz' = .ok (some nextAt) ∧
      c = { id, expr, prompt, tz := tz', nextAt := some nextAt } := by
  simp only [cronAdd] at h
  generalize ((tz.map fun t => String.ofList (RustStr.trim t.toList)).filter (· ≠ "")).getD cfg.defaultTz = tz'
    at h
  cases hnext : nextFire cfg.zones expr now tz' with
  | error e => simp [hnext] at h
  | ok nextAt =>
    cases nextAt with
    | none => simp [hnext] at h
    | some nextAt =>
      simp only [hnext, Except.ok.injEq] at h
      exact ⟨tz', nextAt, hnext, h.symm⟩

theorem cronDelay_ok {secs : Int} {prompt : String} {now : Int} {id : String} {c : NewCron} {timer : Bool}
    (h : cronDelay cfg secs prompt now id = .ok (c, timer)) :
    c = { id, expr := onceExpr, prompt, tz := cfg.defaultTz, nextAt := some (now + secs) } := by
  unfold cronDelay at h
  split_ifs at h
  · simp only [Except.ok.injEq, Prod.mk.injEq] at h
    exact h.1.symm

theorem moves_insert {w w' : CronWorld} {a : Act} {c : NewCron} (hadds : Adds cfg w.now a c false)
    (hfresh : w.Fresh c.id) (h : w.insert c = some w') : Moves cfg w a w' := by
  obtain ⟨db, hdb, rfl⟩ := Option.map_eq_some_iff.1 h
  exact .insert hadds hfresh hdb

/-- Everything a step can do. -/
theorem moves_of_step {w w' : CronWorld} {a : Act} (h : step cfg w a = some w') : Moves cfg w a w' := by
  cases a with
  | tick now =>
    simp only [step, Option.ite_none_left_eq_some, Option.some.injEq] at h
    obtain ⟨hnow, rfl⟩ := h
    exact .tick (by omega)
  | add p clock id =>
    simp only [step] at h
    split at h
    · simp at h
    · next hguard =>
      rw [not_or, not_not, not_lt] at hguard
      cases hc : handleCronAdd cfg.zones p clock id with
      | error e =>
        simp only [hc, Option.some.injEq] at h
        obtain ⟨e, herror⟩ := handleCronAdd_error hc
        exact h ▸ .refuse herror
      | ok c =>
        simp only [hc] at h
        obtain ⟨nextAt, hnext, rfl⟩ := handleCronAdd_ok hc
        exact moves_insert (.method hguard.1 hnext) hguard.2 h
  | addTool expr prompt tz clock id =>
    simp only [step] at h
    split at h
    · simp at h
    · next hguard =>
      rw [not_or, not_not, not_lt] at hguard
      cases hc : cronAdd cfg expr prompt tz clock id with
      | error e =>
        simp only [hc, Option.some.injEq] at h
        exact h ▸ .refuseTool
      | ok c =>
        simp only [hc] at h
        obtain ⟨tz', nextAt, hnext, rfl⟩ := cronAdd_ok hc
        exact moves_insert (.tool hguard.1 hnext) hguard.2 h
  | delay secs prompt clock id =>
    simp only [step] at h
    split at h
    · simp at h
    · next hguard =>
      rw [not_or, not_not, not_lt] at hguard
      cases hc : cronDelay cfg secs prompt clock id with
      | error e =>
        simp only [hc, Option.some.injEq] at h
        exact h ▸ .refuseDelay
      | ok r =>
        obtain ⟨c, timer⟩ := r
        simp only [hc, insert, Option.map_map, Option.map_eq_some_iff] at h
        obtain ⟨db, hdb, rfl⟩ := h
        obtain rfl := cronDelay_ok hc
        have hadds : Adds cfg w.now (.delay secs prompt clock id) _ timer := .delay
        have hmoves := Moves.insert hadds hguard.2 hdb
        cases timer
        · exact hmoves
        · exact hmoves
  | rm id =>
    obtain rfl := Option.some.inj h
    exact .remove (.inl rfl) (.inl (if_pos rfl))
  | rmTool id =>
    obtain rfl := Option.some.inj h
    refine .remove (.inr rfl) ?_
    split
    · exact .inl rfl
    · exact .inr rfl
  | ack id =>
    simp only [step, Option.ite_none_right_eq_some, Option.some.injEq] at h
    obtain ⟨hid, rfl⟩ := h
    exact .ack hid
  | beat clock =>
    simp only [step, Option.ite_none_left_eq_some, Option.some.injEq, not_or, not_lt] at h
    obtain ⟨⟨hclock, hscan⟩, rfl⟩ := h
    exact .beat hclock (by simpa using hscan)
  | scan answer =>
    cases hscan : w.scan with
    | none => simp [step, hscan] at h
    | some sc =>
      cases hjob : sc.job with
      | some j =>
        simp only [step, hscan, hjob, Option.some.injEq] at h
        exact h ▸ .scanJob hscan hjob
      | none =>
        cases hdue : sc.due with
        | nil =>
          simp only [step, hscan, hjob, hdue, Option.some.injEq] at h
          exact h ▸ .scanEnd hscan hjob hdue
        | cons id due =>
          simp only [step, hscan, hjob, hdue, Option.some.injEq] at h
          exact h ▸ .scanNext hscan hjob hdue
  | timer id answer =>
    cases htimer : w.timers.lookup id with
    | none => simp [step, htimer] at h
    | some tm =>
      cases tm with
      | some j =>
        simp only [step, htimer, Option.some.injEq] at h
        exact h ▸ .timerJob htimer
      | none =>
        simp only [step, htimer] at h
        cases hfind : w.db.cronList.find? (·.id = id) with
        | none =>
          simp only [hfind, Option.some.injEq] at h
          exact h ▸ .timerEnd htimer
        | some row =>
          have hrow : row ∈ w.db.crons := CronDb.mem_cronList.1 (List.mem_of_find?_eq_some hfind)
          have hid : row.id = id := by simpa using List.find?_some hfind
          simp only [hfind] at h
          split at h
          · exact Option.some.inj h ▸ .timerWake htimer hrow hid
          · exact Option.some.inj h ▸ .timerEnd htimer
  | restart =>
    obtain rfl := Option.some.inj h
    exact .restart

end CronWorld

/-! ## Soundness -/

/-- The row is of a task that was added. -/
def CronRow.Of (r : CronRow) (n : NewCron) : Prop := r.id = n.id ∧ r.expr = n.expr ∧ r.tz = n.tz

def Known (added : List NewCron) (r : CronRow) : Prop := ∃ n ∈ added, r.Of n

theorem Known.mono {added : List NewCron} {r : CronRow} (h : Known added r) (c : NewCron) :
    Known (added ++ [c]) r := by
  obtain ⟨n, hn, hof⟩ := h
  exact ⟨n, List.mem_append_left _ hn, hof⟩

/-- A job is on a row that is known, and its phase is one its task goes through. -/
structure CronJob.Ok (added : List NewCron) (j : CronJob) : Prop where
  known : Known added j.row
  claims : j.phase = .claim → isOnce j.row.expr = true
  marks : j.phase = .mark → isOnce j.row.expr = false

namespace CronJob

variable {added : List NewCron}

theorem Ok.mono {j : CronJob} (h : j.Ok added) (c : NewCron) : j.Ok (added ++ [c]) :=
  ⟨h.known.mono c, h.claims, h.marks⟩

/-- A task that fires once is not rescheduled. -/
theorem Ok.not_mark {j : CronJob} (h : j.Ok added) (honce : isOnce j.row.expr = true) : j.phase ≠ .mark := by
  intro hmark
  rw [h.marks hmark] at honce
  simp at honce

theorem ok_start {row : CronRow} (h : Known added row) (now : Int) : (start now row).Ok added := by
  cases honce : isOnce row.expr with
  | true => exact ⟨h, fun _ => honce, by simp [start, honce]⟩
  | false => exact ⟨h, by simp [start, honce], fun _ => honce⟩

theorem ok_advance {Z : Zones} {answer : String} {clock : Int} {db : CronDb} {j j' : CronJob}
    (h : j.Ok added) (hj : (j.advance Z answer clock db).2.2 = some j') : j'.Ok added ∧ j'.row = j.row := by
  cases hphase : j.phase with
  | claim =>
    simp only [advance, hphase, Option.ite_none_right_eq_some, Option.some.injEq] at hj
    obtain ⟨-, rfl⟩ := hj
    exact ⟨⟨h.known, by simp, by simp⟩, rfl⟩
  | turn =>
    simp only [advance, hphase, Option.ite_none_left_eq_some, Option.some.injEq] at hj
    obtain ⟨honce, rfl⟩ := hj
    exact ⟨⟨h.known, by simp, fun _ => by simpa using honce⟩, rfl⟩
  | mark => simp [advance, hphase] at hj

/-- What a job leaves in the table: rows that were there, one of them with a new time perhaps. -/
theorem mem_advance {Z : Zones} {answer : String} {clock : Int} {db : CronDb} {j : CronJob} {r' : CronRow}
    (h : r' ∈ (j.advance Z answer clock db).1.crons) :
    ∃ r ∈ db.crons, r' = r ∨ j.phase = .mark ∧ r.id = j.row.id ∧
      r' = { r with lastFiredAt := some j.now, nextAt := (nextFire Z j.row.expr j.now j.row.tz).toOption.join } := by
  cases hphase : j.phase with
  | claim =>
    simp only [advance, hphase] at h
    exact ⟨r', (CronDb.mem_cronRm.1 h).1, Or.inl rfl⟩
  | turn =>
    simp only [advance, hphase] at h
    exact ⟨r', h, Or.inl rfl⟩
  | mark =>
    simp only [advance, hphase] at h
    obtain ⟨r, hr, rfl⟩ := CronDb.mem_cronMarkFired.1 h
    refine ⟨r, hr, ?_⟩
    unfold CronDb.fireRow
    split
    · next hid => exact Or.inr ⟨rfl, hid, rfl⟩
    · exact Or.inl rfl

end CronJob

namespace CronWorld

structure Sound (w : CronWorld) : Prop where
  ids : (w.added.map (·.id)).Nodup
  rows : ∀ r ∈ w.db.crons, Known w.added r
  scanned : ∀ sc ∈ w.scan, ∀ r ∈ sc.rows, Known w.added r
  job : ∀ sc ∈ w.scan, ∀ j ∈ sc.job, j.Ok w.added
  timers : ∀ id tm, w.timers.lookup id = some tm → ∃ n ∈ w.added, n.id = id ∧ isOnce n.expr = true
  timerJob : ∀ id j, w.timers.lookup id = some (some j) → j.row.id = id ∧ j.Ok w.added

theorem sound_init (now : Int) : Sound (init now) where
  ids := List.nodup_nil
  rows := by simp [init, CronDb.empty]
  scanned := by simp [init]
  job := by simp [init]
  timers := by simp [init]
  timerJob := by simp [init]

variable {cfg : CronCfg} {w w' : CronWorld} {a : Act}

theorem known_advance (h : Sound w) {Z : Zones} {answer : String} {clock : Int} {j : CronJob} {r' : CronRow}
    (hr' : r' ∈ (j.advance Z answer clock w.db).1.crons) : Known w.added r' := by
  obtain ⟨r, hr, rfl | ⟨-, -, rfl⟩⟩ := CronJob.mem_advance hr'
  · exact h.rows _ hr
  · exact h.rows r hr

theorem isOnce_of_adds {c : NewCron} {now : Int} (h : Adds cfg now a c true) : isOnce c.expr = true := by
  cases h with
  | delay => exact (by decide : isOnce onceExpr = true)

theorem sound_step (h : Sound w) (hm : Moves cfg w a w') : Sound w' := by
  cases hm with
  | tick hnow => exact ⟨h.ids, h.rows, h.scanned, h.job, h.timers, h.timerJob⟩
  | refuse | refuseTool | refuseDelay => exact h
  | @insert a c timer db hadds hfresh hdb =>
    have hlookup : ∀ {id tm}, (if timer then w.timers.insert c.id none else w.timers).lookup id = some tm →
        w.timers.lookup id = some tm ∨ timer = true ∧ id = c.id ∧ tm = none := by
      intro id tm hid
      split at hid
      · next htimer =>
        rcases IdMap.of_lookup_insert hid with ⟨rfl, rfl⟩ | ⟨-, hid⟩
        · exact Or.inr ⟨htimer, rfl, rfl⟩
        · exact Or.inl hid
      · exact Or.inl hid
    refine ⟨?_, ?_, ?_, ?_, ?_, ?_⟩
    · show ((w.added ++ [c]).map (·.id)).Nodup
      rw [List.map_append]
      exact List.Nodup.append h.ids (List.nodup_singleton _) (by simpa using hfresh.1)
    · intro r hr
      rw [CronDb.crons_cronAdd hdb, List.mem_append, List.mem_singleton] at hr
      rcases hr with hr | rfl
      · exact (h.rows r hr).mono c
      · exact ⟨c, List.mem_append_right _ (List.mem_singleton.2 rfl), rfl, rfl, rfl⟩
    · exact fun sc hsc r hr => (h.scanned sc hsc r hr).mono c
    · exact fun sc hsc j hj => (h.job sc hsc j hj).mono c
    · intro id tm hid
      rcases hlookup hid with hid | ⟨rfl, rfl, rfl⟩
      · obtain ⟨n, hn, hnid, honce⟩ := h.timers id tm hid
        exact ⟨n, List.mem_append_left _ hn, hnid, honce⟩
      · exact ⟨c, List.mem_append_right _ (List.mem_singleton.2 rfl), rfl, isOnce_of_adds hadds⟩
    · intro id j hid
      rcases hlookup hid with hid | ⟨-, -, hnone⟩
      · exact ⟨(h.timerJob id j hid).1, (h.timerJob id j hid).2.mono c⟩
      · simp at hnone
  | remove ha hacks =>
    exact ⟨h.ids, fun r hr => h.rows r (CronDb.mem_cronRm.1 hr).1, h.scanned, h.job, h.timers, h.timerJob⟩
  | ack hid => exact ⟨h.ids, h.rows, h.scanned, h.job, h.timers, h.timerJob⟩
  | beat hclock hscan =>
    refine ⟨h.ids, h.rows, ?_, ?_, h.timers, h.timerJob⟩
    · intro sc hsc r hr
      obtain rfl := Option.some.inj hsc
      exact h.rows r (CronDb.mem_cronList.1 hr)
    · intro sc hsc j hj
      obtain rfl := Option.some.inj hsc
      simp [CronScan.start] at hj
  | @scanJob sc j answer hscan hjob =>
    have hok := h.job sc hscan j hjob
    refine ⟨h.ids, fun r hr => known_advance h hr, ?_, ?_, h.timers, h.timerJob⟩
    · intro sc' hsc r hr
      obtain rfl := Option.some.inj hsc
      exact h.scanned sc hscan r hr
    · intro sc' hsc j' hj'
      obtain rfl := Option.some.inj hsc
      exact (CronJob.ok_advance hok hj').1
  | @scanNext sc id answer due hscan hjob hdue =>
    refine ⟨h.ids, h.rows, ?_, ?_, h.timers, h.timerJob⟩
    · intro sc' hsc r hr
      obtain rfl := Option.some.inj hsc
      exact h.scanned sc hscan r hr
    · intro sc' hsc j hj
      obtain rfl := Option.some.inj hsc
      obtain ⟨row, hrow, rfl⟩ := Option.map_eq_some_iff.1 hj
      exact CronJob.ok_start (h.scanned sc hscan row (List.mem_of_find?_eq_some hrow)) _
  | scanEnd hscan hjob hdue =>
    exact ⟨h.ids, h.rows, fun sc hsc => by simp at hsc, fun sc hsc => by simp at hsc, h.timers, h.timerJob⟩
  | @timerJob id answer j htimer =>
    obtain ⟨hid, hok⟩ := h.timerJob id j htimer
    refine ⟨h.ids, fun r hr => known_advance h hr, h.scanned, h.job, fun id' tm hid' => ?_, fun id' j' hid' => ?_⟩
    · dsimp only at hid'
      split at hid'
      · rcases IdMap.of_lookup_insert hid' with ⟨rfl, -⟩ | ⟨-, hid'⟩
        · exact h.timers id' _ htimer
        · exact h.timers id' tm hid'
      · exact h.timers id' tm (IdMap.of_lookup_erase hid').2
    · dsimp only at hid'
      split at hid'
      · rcases IdMap.of_lookup_insert hid' with ⟨rfl, hj'⟩ | ⟨-, hid'⟩
        · obtain ⟨hok', hrow⟩ := CronJob.ok_advance hok hj'.symm
          exact ⟨by rw [hrow, hid], hok'⟩
        · exact h.timerJob id' j' hid'
      · exact h.timerJob id' j' (IdMap.of_lookup_erase hid').2
  | @timerWake id answer row htimer hrow hid =>
    refine ⟨h.ids, h.rows, h.scanned, h.job, fun id' tm hid' => ?_, fun id' j' hid' => ?_⟩
    · rcases IdMap.of_lookup_insert hid' with ⟨rfl, -⟩ | ⟨-, hid'⟩
      · exact h.timers id' _ htimer
      · exact h.timers id' tm hid'
    · rcases IdMap.of_lookup_insert hid' with ⟨rfl, hj'⟩ | ⟨-, hid'⟩
      · obtain rfl := Option.some.inj hj'
        exact ⟨hid, CronJob.ok_start (h.rows row hrow) _⟩
      · exact h.timerJob id' j' hid'
  | timerEnd htimer =>
    exact ⟨h.ids, h.rows, h.scanned, h.job, fun id' tm hid' => h.timers id' tm (IdMap.of_lookup_erase hid').2,
      fun id' j' hid' => h.timerJob id' j' (IdMap.of_lookup_erase hid').2⟩
  | restart =>
    refine ⟨h.ids, h.rows, fun sc hsc => by simp at hsc, fun sc hsc => by simp at hsc, ?_, ?_⟩
    · simp
    · simp

/-- Two rows of one id are of one task. -/
theorem Sound.sameTask (h : Sound w) {r r' : CronRow} (hr : Known w.added r) (hr' : Known w.added r')
    (hid : r.id = r'.id) : r.expr = r'.expr ∧ r.tz = r'.tz := by
  obtain ⟨n, hn, hof⟩ := hr
  obtain ⟨n', hn', hof'⟩ := hr'
  obtain rfl := List.inj_on_of_nodup_map h.ids hn hn' (hof.1.symm.trans (hid.trans hof'.1))
  exact ⟨hof.2.1.trans hof'.2.1.symm, hof.2.2.trans hof'.2.2.symm⟩

/-- Timers fire tasks that fire once. -/
theorem Sound.once_of_timer (h : Sound w) {id : String} {j : CronJob} (hj : w.timers.lookup id = some (some j)) :
    isOnce j.row.expr = true := by
  obtain ⟨n, hn, hnid, honce⟩ := h.timers id _ hj
  obtain ⟨hid, ⟨m, hm, hof⟩, -, -⟩ := h.timerJob id j hj
  obtain rfl := List.inj_on_of_nodup_map h.ids hn hm (hnid.trans (hid.symm.trans hof.1))
  rw [hof.2.1]
  exact honce

theorem sound_of_run {now : Int} {as : List Act} (h : Steps.exec (step cfg) (init now) as = some w) : Sound w :=
  Steps.exec_invariant (fun _ _ _ hs hstep => sound_step hs (moves_of_step hstep)) (sound_init now) h

end CronWorld

end OhMyClaw
