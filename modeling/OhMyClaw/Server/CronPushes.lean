import OhMyClaw.Server.Cron

/-!
# How often a task reminds

A task that fires once is deleted by whoever fires it, scan or timer, so it is fired once.  A
recurring task is fired by the scans alone, one after the other; it keeps its old time until it has
been fired, and gets one behind the clock of its scan then.

    Exclusive        a task that fires once is in the table, in one turn, or has fired: one of these
    DueAt            the next time of a recurring task is a minute that no reminder was for
    pushed_on_time   at most one reminder for a task that fires once, at most one for each matching
                     minute of a recurring task and none before that minute
-/

namespace OhMyClaw

def CronEvent.push? : CronEvent → Option Push
  | .pushed p => some p
  | .removed => none

/-- The reminders of a task. -/
def pushesOf (id : String) (log : List (String × CronEvent)) : List Push :=
  (Ledger.under id log).filterMap CronEvent.push?

section Pushes

variable {id k : String} {log : List (String × CronEvent)}

theorem pushesOf_removed : pushesOf id (log ++ [(k, .removed)]) = pushesOf id log := by
  unfold pushesOf
  by_cases hk : k = id
  · rw [hk, Ledger.under_snoc_self, List.filterMap_append]
    simp [CronEvent.push?]
  · rw [Ledger.under_snoc_ne hk]

theorem pushesOf_entries_self {p : Option Push} :
    pushesOf id (log ++ CronWorld.entries id p) = pushesOf id log ++ p.toList := by
  unfold pushesOf CronWorld.entries
  cases p with
  | none => simp
  | some p =>
    show (Ledger.under id (log ++ [(id, .pushed p)])).filterMap CronEvent.push? = _
    rw [Ledger.under_snoc_self, List.filterMap_append]
    rfl

theorem pushesOf_entries_ne (hk : k ≠ id) {p : Option Push} :
    pushesOf id (log ++ CronWorld.entries k p) = pushesOf id log := by
  unfold pushesOf CronWorld.entries
  cases p with
  | none => simp
  | some p =>
    show (Ledger.under id (log ++ [(k, .pushed p)])).filterMap CronEvent.push? = _
    rw [Ledger.under_snoc_ne hk]

theorem pushesOf_eq_nil (h : id ∉ log.map (·.1)) : pushesOf id log = [] := by
  unfold pushesOf
  rw [Ledger.under_eq_nil fun e he hid => h (List.mem_map.2 ⟨e, he, hid⟩), List.filterMap_nil]

end Pushes

/-- Every reminder is for a minute that matches and has come, and no two are for the same minute. -/
structure OnTime (Z : Zones) (n : NewCron) (ps : List Push) : Prop where
  minute : ∀ p ∈ ps, ∃ m, p.slot = some m ∧ m % 60 = 0 ∧ CronMatches Z n.expr n.tz m ∧ m ≤ p.sentAt
  once : ps.Pairwise fun p q => p.slot ≠ q.slot

namespace CronWorld

def PushedOnTime (cfg : CronCfg) (w : CronWorld) : Prop :=
  ∀ n ∈ w.added, if isOnce n.expr then (pushesOf n.id w.log).length ≤ 1
    else OnTime cfg.zones n (pushesOf n.id w.log)

/-! ## Tasks that fire once -/

/-- A task is in the table, or in a turn of a scan or of a timer, or has been pushed. -/
structure Exclusive (has scanning timing : Prop) (ps : List Push) : Prop where
  table : has → ¬ scanning ∧ ¬ timing ∧ ps = []
  scan : scanning → ¬ timing ∧ ps = []
  timer : timing → ps = []
  atMost : ps.length ≤ 1

section Exclusive

variable {has has' s s' t t' : Prop} {ps : List Push}

theorem Exclusive.mono (h : Exclusive has s t ps) (hhas : has' → has) (hs : s' → s) (ht : t' → t) :
    Exclusive has' s' t' ps where
  table := fun x =>
    let ⟨h₁, h₂, h₃⟩ := h.table (hhas x)
    ⟨fun y => h₁ (hs y), fun y => h₂ (ht y), h₃⟩
  scan := fun x =>
    let ⟨h₁, h₂⟩ := h.scan (hs x)
    ⟨fun y => h₁ (ht y), h₂⟩
  timer := fun x => h.timer (ht x)
  atMost := h.atMost

theorem Exclusive.swap (h : Exclusive has s t ps) : Exclusive has t s ps where
  table := fun x =>
    let ⟨h₁, h₂, h₃⟩ := h.table x
    ⟨h₂, h₁, h₃⟩
  scan := fun x => ⟨fun y => (h.scan y).1 x, h.timer x⟩
  timer := fun x => (h.scan x).2
  atMost := h.atMost

/-- A task that is new has not fired. -/
theorem exclusive_new (hs : ¬ s) (ht : ¬ t) : Exclusive has s t [] :=
  ⟨fun _ => ⟨hs, ht, rfl⟩, fun x => absurd x hs, fun x => absurd x ht, Nat.zero_le _⟩

end Exclusive

theorem has_of_advance {Z : Zones} {answer : String} {clock : Int} {db : CronDb} {j : CronJob} {id : String}
    (h : (j.advance Z answer clock db).1.Has id) : db.Has id := by
  obtain ⟨r', hr', rfl⟩ := h
  obtain ⟨r, hr, rfl | ⟨-, -, rfl⟩⟩ := CronJob.mem_advance hr'
  · exact ⟨_, hr, rfl⟩
  · exact ⟨r, hr, rfl⟩

/-- The job of a task that fires once: it claims the task, and pushes it. -/
theorem exclusive_advance (Z : Zones) (answer : String) (clock : Int) {db : CronDb} {j : CronJob}
    (honce : isOnce j.row.expr = true) (hmark : j.phase ≠ .mark) {t : Prop} {ps : List Push}
    (h : Exclusive (db.Has j.row.id) (j.phase = .turn) t ps) :
    Exclusive ((j.advance Z answer clock db).1.Has j.row.id)
      (∃ j' ∈ (j.advance Z answer clock db).2.2, j'.phase = .turn) t
      (ps ++ (j.advance Z answer clock db).2.1.toList) := by
  cases hphase : j.phase with
  | claim =>
    simp only [CronJob.advance, hphase, Option.toList_none, List.append_nil]
    have hgone : ¬ (db.cronRm j.row.id).2.Has j.row.id := fun hhas => (CronDb.has_cronRm.1 hhas).2 rfl
    by_cases hhit : (db.cronRm j.row.id).1 = true
    · obtain ⟨-, ht, hps⟩ := h.table (CronDb.cronRm_fst.1 hhit)
      exact ⟨fun x => absurd x hgone, fun _ => ⟨ht, hps⟩, fun x => absurd x ht, h.atMost⟩
    · rw [if_neg hhit]
      exact h.mono (fun x => absurd x hgone) (by simp) id
  | turn =>
    obtain ⟨ht, hps⟩ := h.scan hphase
    have hhas : ¬ db.Has j.row.id := fun x => (h.table x).1 hphase
    simp only [CronJob.advance, hphase, honce, if_true, hps, List.nil_append]
    exact ⟨fun x => absurd x hhas, by simp, fun x => absurd x ht, by simp⟩
  | mark => exact absurd hphase hmark

/-- A scan has the task in a turn. -/
def Scanning (w : CronWorld) (id : String) : Prop :=
  ∃ sc ∈ w.scan, ∃ j ∈ sc.job, j.phase = .turn ∧ j.row.id = id

/-- A timer has the task in a turn. -/
def Timing (w : CronWorld) (id : String) : Prop :=
  ∃ j, w.timers.lookup id = some (some j) ∧ j.phase = .turn

def OnceInv (w : CronWorld) : Prop :=
  ∀ n ∈ w.added, isOnce n.expr = true →
    Exclusive (w.db.Has n.id) (Scanning w n.id) (Timing w n.id) (pushesOf n.id w.log)

section Once

variable {cfg : CronCfg} {w w' : CronWorld} {a : Act}

/-- A turn is not begun with a task that fires once: it is claimed first. -/
theorem not_turn_start {row : CronRow} (honce : isOnce row.expr = true) (now : Int) :
    (CronJob.start now row).phase ≠ .turn := by
  simp [CronJob.start, honce]

theorem Sound.isOnce_of_known (hs : Sound w) {n : NewCron} (hn : n ∈ w.added) {r : CronRow} (hr : Known w.added r)
    (hid : r.id = n.id) : isOnce r.expr = isOnce n.expr := by
  obtain ⟨m, hm, hof⟩ := hr
  obtain rfl := List.inj_on_of_nodup_map hs.ids hm hn (hof.1.symm.trans hid)
  rw [hof.2.1]

/-- A timer that is set holds no turn yet. -/
theorem timing_of_insert {c : NewCron} {timer : Bool} {db : CronDb} {id : String}
    (h : Timing { w with db, added := w.added ++ [c]
                         timers := if timer then w.timers.insert c.id none else w.timers } id) : Timing w id := by
  obtain ⟨j, hj, hturn⟩ := h
  dsimp only at hj
  split at hj
  · rcases IdMap.of_lookup_insert hj with ⟨-, hnone⟩ | ⟨-, hj⟩
    · simp at hnone
    · exact ⟨j, hj, hturn⟩
  · exact ⟨j, hj, hturn⟩

theorem once_insert (hs : Sound w) (hI : OnceInv w) {c : NewCron} {timer : Bool} {db : CronDb}
    (hfresh : w.Fresh c.id) (hdb : w.db.cronAdd c = some db) :
    OnceInv { w with db, added := w.added ++ [c]
                     timers := if timer then w.timers.insert c.id none else w.timers } := by
  intro n hn honce
  rcases List.mem_append.1 hn with hn | hn
  · refine (hI n hn honce).mono (fun hhas => ?_) (fun h => h) timing_of_insert
    rcases (CronDb.has_cronAdd hdb).1 hhas with hhas | hid
    · exact hhas
    · exact absurd (hid ▸ List.mem_map_of_mem hn) hfresh.1
  · obtain rfl := List.mem_singleton.1 hn
    show Exclusive _ _ _ (pushesOf n.id w.log)
    rw [pushesOf_eq_nil hfresh.2.2]
    refine exclusive_new ?_ fun h => ?_
    · rintro ⟨sc, hsc, j, hj, -, hid⟩
      obtain ⟨m, hm, hof⟩ := (hs.job sc hsc j hj).known
      exact hfresh.1 (List.mem_map.2 ⟨m, hm, hof.1.symm.trans hid⟩)
    · obtain ⟨j, hj, -⟩ := timing_of_insert h
      obtain ⟨m, hm, hid, -⟩ := hs.timers _ _ hj
      exact hfresh.1 (List.mem_map.2 ⟨m, hm, hid⟩)

/-- A job of the scan that fires once hands its task on to itself. -/
theorem once_scanJob (hs : Sound w) (hI : OnceInv w) {sc : CronScan} {j : CronJob} (hscan : w.scan = some sc)
    (hjob : sc.job = some j) (answer : String) :
    OnceInv { w with
      db := (j.advance cfg.zones answer w.now w.db).1
      scan := some { sc with job := (j.advance cfg.zones answer w.now w.db).2.2 }
      log := w.log ++ entries j.row.id (j.advance cfg.zones answer w.now w.db).2.1 } := by
  intro n hn honce
  have hok := hs.job sc hscan j hjob
  by_cases hid : j.row.id = n.id
  · have hjonce : isOnce j.row.expr = true := (hs.isOnce_of_known hn hok.known hid).trans honce
    have hbefore := hI n hn honce
    rw [← hid] at hbefore ⊢
    have hafter := exclusive_advance cfg.zones answer w.now hjonce (hok.not_mark hjonce)
      (hbefore.mono id (fun hturn => ⟨sc, hscan, j, hjob, hturn, rfl⟩) id)
    show Exclusive _ _ _ (pushesOf j.row.id (w.log ++ entries j.row.id _))
    rw [pushesOf_entries_self]
    refine hafter.mono (fun h => h) ?_ fun h => h
    rintro ⟨sc', hsc, j', hj', hturn, -⟩
    obtain rfl := Option.some.inj hsc
    exact ⟨j', hj', hturn⟩
  · show Exclusive _ _ _ (pushesOf n.id (w.log ++ entries j.row.id _))
    rw [pushesOf_entries_ne hid]
    refine (hI n hn honce).mono has_of_advance ?_ fun h => h
    rintro ⟨sc', hsc, j', hj', -, hid'⟩
    obtain rfl := Option.some.inj hsc
    exact absurd ((congrArg CronRow.id (CronJob.ok_advance hok hj').2).symm.trans hid') hid

/-- The job of a timer does the same. -/
theorem once_timerJob (hs : Sound w) (hI : OnceInv w) {id : String} {j : CronJob}
    (htimer : w.timers.lookup id = some (some j)) (answer : String) :
    OnceInv { w with
      db := (j.advance cfg.zones answer w.now w.db).1
      log := w.log ++ entries j.row.id (j.advance cfg.zones answer w.now w.db).2.1
      timers := if (j.advance cfg.zones answer w.now w.db).2.2.isSome
        then w.timers.insert id (j.advance cfg.zones answer w.now w.db).2.2 else w.timers.erase id } := by
  intro n hn honce
  obtain ⟨hjid, hok⟩ := hs.timerJob id j htimer
  have hjonce := hs.once_of_timer htimer
  by_cases hid : j.row.id = n.id
  · have hbefore := hI n hn honce
    rw [← hid] at hbefore ⊢
    have hafter := exclusive_advance cfg.zones answer w.now hjonce (hok.not_mark hjonce)
      (hbefore.swap.mono (fun h => h) (fun hturn => ⟨j, hjid ▸ htimer, hturn⟩) fun h => h)
    show Exclusive _ _ _ (pushesOf j.row.id (w.log ++ entries j.row.id _))
    rw [pushesOf_entries_self]
    refine hafter.swap.mono (fun h => h) (fun h => h) ?_
    rintro ⟨j', hj', hturn⟩
    dsimp only at hj'
    rw [hjid] at hj'
    split at hj'
    · rw [AList.lookup_insert] at hj'
      exact ⟨j', Option.some.inj hj', hturn⟩
    · rw [AList.lookup_erase] at hj'
      simp at hj'
  · show Exclusive _ _ _ (pushesOf n.id (w.log ++ entries j.row.id _))
    rw [pushesOf_entries_ne hid]
    refine (hI n hn honce).mono has_of_advance (fun h => h) ?_
    rintro ⟨j', hj', hturn⟩
    dsimp only at hj'
    split at hj'
    · rcases IdMap.of_lookup_insert hj' with ⟨hnid, -⟩ | ⟨-, hj'⟩
      · exact absurd (hjid.trans hnid.symm) hid
      · exact ⟨j', hj', hturn⟩
    · exact ⟨j', (IdMap.of_lookup_erase hj').2, hturn⟩

theorem once_step (hs : Sound w) (hI : OnceInv w) (hm : Moves cfg w a w') : OnceInv w' := by
  cases hm with
  | tick hnow => exact hI
  | refuse | refuseTool | refuseDelay => exact hI
  | insert hadds hfresh hdb => exact once_insert hs hI hfresh hdb
  | remove ha hacks =>
    exact fun n hn honce => (hI n hn honce).mono (fun hhas => (CronDb.has_cronRm.1 hhas).1) (fun h => h) fun h => h
  | ack hid =>
    intro n hn honce
    show Exclusive _ _ _ (pushesOf n.id (w.log ++ _))
    rw [pushesOf_removed]
    exact hI n hn honce
  | beat hclock hscan =>
    refine fun n hn honce => (hI n hn honce).mono (fun h => h) ?_ fun h => h
    rintro ⟨sc, hsc, j, hj, -⟩
    obtain rfl := Option.some.inj hsc
    simp [CronScan.start] at hj
  | @scanJob sc j answer hscan hjob => exact once_scanJob hs hI hscan hjob answer
  | @scanNext sc id answer due hscan hjob hdue =>
    refine fun n hn honce => (hI n hn honce).mono (fun h => h) ?_ fun h => h
    rintro ⟨sc', hsc, j, hj, hturn, hid⟩
    obtain rfl := Option.some.inj hsc
    obtain ⟨row, hrow, rfl⟩ := Option.map_eq_some_iff.1 hj
    have hknown := hs.scanned sc hscan row (List.mem_of_find?_eq_some hrow)
    exact absurd hturn (not_turn_start ((hs.isOnce_of_known hn hknown hid).trans honce) _)
  | scanEnd hscan hjob hdue =>
    refine fun n hn honce => (hI n hn honce).mono (fun h => h) ?_ fun h => h
    rintro ⟨sc, hsc, -⟩
    simp at hsc
  | @timerJob id answer j htimer => exact once_timerJob hs hI htimer answer
  | @timerWake id answer row htimer hrow hid =>
    refine fun n hn honce => (hI n hn honce).mono (fun h => h) (fun h => h) ?_
    rintro ⟨j, hj, hturn⟩
    rcases IdMap.of_lookup_insert hj with ⟨hnid, hj⟩ | ⟨-, hj⟩
    · obtain rfl := Option.some.inj hj
      have hrow := hs.isOnce_of_known hn (hs.rows row hrow) (hid.trans hnid.symm)
      exact absurd hturn (not_turn_start (hrow.trans honce) _)
    · exact ⟨j, hj, hturn⟩
  | timerEnd htimer =>
    refine fun n hn honce => (hI n hn honce).mono (fun h => h) (fun h => h) ?_
    rintro ⟨j, hj, hturn⟩
    exact ⟨j, (IdMap.of_lookup_erase hj).2, hturn⟩
  | restart =>
    refine fun n hn honce => (hI n hn honce).mono (fun h => h) ?_ ?_
    · rintro ⟨sc, hsc, -⟩
      simp at hsc
    · rintro ⟨j, hj, -⟩
      simp at hj

end Once

/-! ## Recurring tasks -/

/-- The time of the row is a minute that matches, behind those of all reminders. -/
def DueAt (Z : Zones) (ps : List Push) (row : CronRow) : Prop :=
  ∀ m ∈ row.nextAt, m % 60 = 0 ∧ CronMatches Z row.expr row.tz m ∧ ∀ p ∈ ps, ∀ s ∈ p.slot, s < m

/-- The time of the row has come and is still to be fired. -/
structure ToFire (Z : Zones) (log : List (String × CronEvent)) (now : Int) (row : CronRow) : Prop where
  due : DueAt Z (pushesOf row.id log) row
  come : ∃ m ≤ now, row.nextAt = some m

/-- What a scan knows of the recurring tasks in its hands. -/
structure ScanInv (Z : Zones) (log : List (String × CronEvent)) (now : Int) (sc : CronScan) : Prop where
  clock : sc.now ≤ now
  jobClock : ∀ j ∈ sc.job, j.now = sc.now
  nodup : sc.due.Nodup
  due : ∀ id ∈ sc.due, ∀ row, sc.rows.find? (·.id = id) = some row → isOnce row.expr = false → ToFire Z log sc.now row
  passed : ∀ j ∈ sc.job, isOnce j.row.expr = false → j.row.id ∉ sc.due
  turn : ∀ j ∈ sc.job, isOnce j.row.expr = false → j.phase = .turn → ToFire Z log sc.now j.row
  mark : ∀ j ∈ sc.job, j.phase = .mark → ∀ p ∈ pushesOf j.row.id log, ∀ s ∈ p.slot, s ≤ sc.now

/-- The task has been pushed and is to be rescheduled. -/
def Marking (w : CronWorld) (id : String) : Prop :=
  ∃ sc ∈ w.scan, ∃ j ∈ sc.job, j.phase = .mark ∧ j.row.id = id

structure MinuteInv (cfg : CronCfg) (w : CronWorld) : Prop where
  table : ∀ r ∈ w.db.crons, isOnce r.expr = false → ¬ Marking w r.id → DueAt cfg.zones (pushesOf r.id w.log) r
  scan : ∀ sc ∈ w.scan, ScanInv cfg.zones w.log w.now sc
  onTime : ∀ n ∈ w.added, isOnce n.expr = false → OnTime cfg.zones n (pushesOf n.id w.log)

section Minutes

variable {cfg : CronCfg} {w w' : CronWorld} {a : Act}

/-- What is added to the log for other tasks does not concern the scan. -/
theorem ScanInv.relog {Z : Zones} {log log' : List (String × CronEvent)} {now now' : Int} {sc : CronScan}
    (h : ScanInv Z log now sc) (hnow : now ≤ now')
    (hdue : ∀ id ∈ sc.due, ∀ row, sc.rows.find? (·.id = id) = some row → isOnce row.expr = false →
      pushesOf row.id log' = pushesOf row.id log)
    (hjob : ∀ j ∈ sc.job, isOnce j.row.expr = false → pushesOf j.row.id log' = pushesOf j.row.id log)
    (hmarks : ∀ j ∈ sc.job, j.phase = .mark → isOnce j.row.expr = false) : ScanInv Z log' now' sc where
  clock := Int.le_trans h.clock hnow
  jobClock := h.jobClock
  nodup := h.nodup
  due := fun id hid row hrow hrecurs => by
    have hfire := h.due id hid row hrow hrecurs
    exact ⟨hdue id hid row hrow hrecurs ▸ hfire.due, hfire.come⟩
  passed := h.passed
  turn := fun j hj hrecurs hturn => by
    have hfire := h.turn j hj hrecurs hturn
    exact ⟨hjob j hj hrecurs ▸ hfire.due, hfire.come⟩
  mark := fun j hj hmark => by
    rw [hjob j hj (hmarks j hj hmark)]
    exact h.mark j hj hmark

/-- The first time of a task that is added. -/
theorem dueAt_new {c : NewCron} {clock : Int} (hnext : nextFire cfg.zones c.expr clock c.tz = .ok c.nextAt) :
    DueAt cfg.zones [] (CronDb.newRow c) := by
  intro m hm
  have hsome : c.nextAt = some m := hm
  rw [hsome] at hnext
  obtain ⟨-, -, hmin, hmatch⟩ := nextFire_eq_some hnext
  exact ⟨hmin, hmatch, by simp⟩

/-- A scan begins with the tasks whose time has come. -/
theorem scanInv_start (hI : MinuteInv cfg w) (hscan : w.scan = none) {clock : Int} (hclock : clock ≤ w.now) :
    ScanInv cfg.zones w.log w.now (.start w.db.cronList clock) where
  clock := hclock
  jobClock := by simp [CronScan.start]
  nodup := by
    refine List.Nodup.sublist (evalDue_sublist _ _) ?_
    rw [List.map_map]
    exact List.Nodup.sublist (List.filter_sublist.map _) w.db.nodup_ids_cronList
  due := by
    intro id hid row hrow hrecurs
    obtain ⟨t, ht, hle⟩ := mem_evalDue.1 hid
    obtain ⟨r, hr, hpair⟩ := List.mem_map.1 ht
    obtain ⟨hrid, hnext⟩ := Prod.mk.inj hpair
    have hr' : r ∈ w.db.crons := CronDb.mem_cronList.1 (List.mem_of_mem_filter hr)
    have hrow' : row ∈ w.db.crons := CronDb.mem_cronList.1 (List.mem_of_find?_eq_some hrow)
    have hrowid : row.id = id := by simpa using List.find?_some hrow
    obtain rfl := List.inj_on_of_nodup_map w.db.primaryKey hrow' hr' (hrowid.trans hrid.symm)
    refine ⟨hI.table row hrow' hrecurs ?_, t, hle, hnext⟩
    rintro ⟨sc, hsc, -⟩
    rw [hscan] at hsc
    simp at hsc
  passed := by simp [CronScan.start]
  turn := by simp [CronScan.start]
  mark := by simp [CronScan.start]

theorem onTime_nil (Z : Zones) (n : NewCron) : OnTime Z n [] := ⟨by simp, List.Pairwise.nil⟩

/-- One more reminder, for a minute behind those of the others. -/
theorem onTime_snoc {Z : Zones} {n : NewCron} {ps : List Push} (h : OnTime Z n ps) {p : Push} {m : Int}
    (hslot : p.slot = some m) (hmin : m % 60 = 0) (hmatch : CronMatches Z n.expr n.tz m) (hsent : m ≤ p.sentAt)
    (hbehind : ∀ q ∈ ps, ∀ s ∈ q.slot, s < m) : OnTime Z n (ps ++ [p]) := by
  constructor
  · intro q hq
    rw [List.mem_append, List.mem_singleton] at hq
    rcases hq with hq | rfl
    · exact h.minute q hq
    · exact ⟨m, hslot, hmin, hmatch, hsent⟩
  · refine List.pairwise_append.2 ⟨h.once, List.pairwise_singleton _ p, fun q hq r hr => ?_⟩
    obtain rfl := List.mem_singleton.1 hr
    rw [hslot]
    intro hsame
    have hlt := hbehind q hq m hsame
    omega

/-- A recurring task is none of those that fire once. -/
theorem Sound.id_ne (hs : Sound w) {j : CronJob} (hok : j.Ok w.added) (honce : isOnce j.row.expr = true)
    {r : CronRow} (hr : Known w.added r) (hrecurs : isOnce r.expr = false) : j.row.id ≠ r.id := by
  intro hid
  rw [(hs.sameTask hok.known hr hid).1, hrecurs] at honce
  simp at honce

theorem row_of_advance {Z : Zones} {answer : String} {clock : Int} {db : CronDb} {j : CronJob}
    (hphase : j.phase ≠ .mark) {r : CronRow} (hr : r ∈ (j.advance Z answer clock db).1.crons) : r ∈ db.crons := by
  obtain ⟨r', hr', rfl | ⟨hmark, -⟩⟩ := CronJob.mem_advance hr
  · exact hr'
  · exact absurd hmark hphase

theorem now_of_advance {Z : Zones} {answer : String} {clock : Int} {db : CronDb} {j j' : CronJob}
    (h : (j.advance Z answer clock db).2.2 = some j') : j'.now = j.now := by
  cases hphase : j.phase with
  | claim =>
    simp only [CronJob.advance, hphase, Option.ite_none_right_eq_some, Option.some.injEq] at h
    rw [← h.2]
  | turn =>
    simp only [CronJob.advance, hphase, Option.ite_none_left_eq_some, Option.some.injEq] at h
    rw [← h.2]
  | mark => simp [CronJob.advance, hphase] at h

/-- The job of a task that fires once does not concern the recurring tasks. -/
theorem onTime_once (hs : Sound w) (hI : MinuteInv cfg w) {j : CronJob} (hok : j.Ok w.added)
    (honce : isOnce j.row.expr = true) {p : Option Push} {n : NewCron} (hn : n ∈ w.added)
    (hrecurs : isOnce n.expr = false) : OnTime cfg.zones n (pushesOf n.id (w.log ++ entries j.row.id p)) := by
  have hid : j.row.id ≠ n.id := by
    intro hid
    have hsame := hs.isOnce_of_known hn hok.known hid
    rw [honce, hrecurs] at hsame
    simp at hsame
  rw [pushesOf_entries_ne hid]
  exact hI.onTime n hn hrecurs

theorem scanInv_once (hs : Sound w) (hI : MinuteInv cfg w) {sc : CronScan} (hscan : w.scan = some sc) {j : CronJob}
    (hok : j.Ok w.added) (honce : isOnce j.row.expr = true) (p : Option Push) :
    ScanInv cfg.zones (w.log ++ entries j.row.id p) w.now sc := by
  have hne : ∀ r, Known w.added r → isOnce r.expr = false →
      pushesOf r.id (w.log ++ entries j.row.id p) = pushesOf r.id w.log := fun r hr hrecurs =>
    pushesOf_entries_ne (hs.id_ne hok honce hr hrecurs)
  refine (hI.scan sc hscan).relog (Int.le_refl _) ?_ ?_ fun j' hj' hmark => (hs.job sc hscan j' hj').marks hmark
  · exact fun id _ row hrow hrecurs => hne row (hs.scanned sc hscan row (List.mem_of_find?_eq_some hrow)) hrecurs
  · exact fun j' hj' hrecurs => hne j'.row (hs.job sc hscan j' hj').known hrecurs

theorem table_once (hs : Sound w) (hI : MinuteInv cfg w) {j : CronJob} (hok : j.Ok w.added)
    (honce : isOnce j.row.expr = true) {p : Option Push} {r : CronRow} (hr : r ∈ w.db.crons)
    (hrecurs : isOnce r.expr = false) (hnot : ¬ Marking w r.id) :
    DueAt cfg.zones (pushesOf r.id (w.log ++ entries j.row.id p)) r := by
  rw [pushesOf_entries_ne (hs.id_ne hok honce (hs.rows r hr) hrecurs)]
  exact hI.table r hr hrecurs hnot

/-- A scan pushes a recurring task: the reminder is for the time of its row. -/
theorem minute_push (hs : Sound w) (hI : MinuteInv cfg w) {sc : CronScan} (hscan : w.scan = some sc) {j : CronJob}
    (hjob : sc.job = some j) (hrecurs : isOnce j.row.expr = false) (hturn : j.phase = .turn) (p : Push)
    (hslot : p.slot = j.row.nextAt) (hsent : p.sentAt = w.now) :
    MinuteInv cfg { w with log := w.log ++ entries j.row.id (some p)
                           scan := some { sc with job := some { j with phase := .mark } } } := by
  have hsc := hI.scan sc hscan
  have hok := hs.job sc hscan j hjob
  have hfire := hsc.turn j hjob hrecurs hturn
  obtain ⟨m, hle, hnext⟩ := hfire.come
  obtain ⟨hmin, hmatch, hbehind⟩ := hfire.due m hnext
  refine ⟨?_, ?_, ?_⟩
  · intro r hr hr' hnot
    have hne : j.row.id ≠ r.id := fun hid => hnot ⟨_, rfl, _, rfl, rfl, hid⟩
    show DueAt _ (pushesOf r.id (w.log ++ entries j.row.id (some p))) r
    rw [pushesOf_entries_ne hne]
    refine hI.table r hr hr' ?_
    rintro ⟨sc', hsc', j', hj', hmark, -⟩
    obtain rfl := Option.some.inj (hscan.symm.trans hsc')
    obtain rfl := Option.some.inj (hjob.symm.trans hj')
    rw [hturn] at hmark
    simp at hmark
  · intro sc' hsc'
    obtain rfl := Option.some.inj hsc'
    refine ⟨hsc.clock, ?_, hsc.nodup, ?_, ?_, ?_, ?_⟩
    · intro j' hj'
      obtain rfl := Option.some.inj hj'
      exact hsc.jobClock j hjob
    · intro id hid row hrow hrow'
      have hfire' := hsc.due id hid row hrow hrow'
      have hrowid : row.id = id := by simpa using List.find?_some hrow
      have hne : j.row.id ≠ row.id := fun h => hsc.passed j hjob hrecurs (h ▸ hrowid ▸ hid)
      refine ⟨?_, hfire'.come⟩
      show DueAt _ (pushesOf row.id (w.log ++ entries j.row.id (some p))) row
      rw [pushesOf_entries_ne hne]
      exact hfire'.due
    · intro j' hj' _
      obtain rfl := Option.some.inj hj'
      exact hsc.passed j hjob hrecurs
    · intro j' hj' _ hphase
      obtain rfl := Option.some.inj hj'
      simp at hphase
    · intro j' hj' _ q hq s hs'
      obtain rfl := Option.some.inj hj'
      show s ≤ sc.now
      have hq : q ∈ pushesOf j.row.id (w.log ++ entries j.row.id (some p)) := hq
      rw [pushesOf_entries_self, List.mem_append] at hq
      rcases hq with hq | hq
      · have hlt := hbehind q hq s hs'
        omega
      · obtain rfl := List.mem_singleton.1 hq
        rw [hslot, hnext] at hs'
        obtain rfl := Option.some.inj hs'
        exact hle
  · intro n hn hrecurs'
    show OnTime _ n (pushesOf n.id (w.log ++ entries j.row.id (some p)))
    by_cases hid : j.row.id = n.id
    · obtain ⟨n', hn', hof⟩ := hok.known
      obtain rfl := List.inj_on_of_nodup_map hs.ids hn' hn (hof.1.symm.trans hid)
      rw [hof.2.1, hof.2.2] at hmatch
      rw [← hid, pushesOf_entries_self]
      have hbefore := hI.onTime n' hn hrecurs'
      rw [← hid] at hbefore
      refine onTime_snoc hbefore (hslot.trans hnext) hmin hmatch ?_ hbehind
      rw [hsent]
      exact Int.le_trans hle hsc.clock
    · rw [pushesOf_entries_ne hid]
      exact hI.onTime n hn hrecurs'

/-- A scan reschedules a task: its next time is behind the clock of the scan. -/
theorem minute_mark (hs : Sound w) (hI : MinuteInv cfg w) {sc : CronScan} (hscan : w.scan = some sc) {j : CronJob}
    (hjob : sc.job = some j) (hmark : j.phase = .mark) :
    MinuteInv cfg { w with
      db := w.db.cronMarkFired j.row.id j.now (nextFire cfg.zones j.row.expr j.now j.row.tz).toOption.join
      scan := some { sc with job := none } } := by
  have hsc := hI.scan sc hscan
  have hok := hs.job sc hscan j hjob
  refine ⟨?_, ?_, hI.onTime⟩
  · intro r' hr' hrecurs _
    obtain ⟨r, hr, rfl⟩ := CronDb.mem_cronMarkFired.1 hr'
    unfold CronDb.fireRow at hrecurs ⊢
    by_cases hid : r.id = j.row.id
    · rw [if_pos hid] at hrecurs ⊢
      obtain ⟨hexpr, htz⟩ := hs.sameTask (hs.rows r hr) hok.known hid
      intro m hm
      obtain ⟨hlt, -, hmin, hmatch⟩ := nextFire_eq_some (nextFire_of_join hm)
      rw [← hexpr, ← htz] at hmatch
      refine ⟨hmin, hmatch, fun p hp s hs' => ?_⟩
      have hp : p ∈ pushesOf j.row.id w.log := hid ▸ hp
      have hle := hsc.mark j hjob hmark p hp s hs'
      rw [← hsc.jobClock j hjob] at hle
      omega
    · rw [if_neg hid] at hrecurs ⊢
      refine hI.table r hr hrecurs ?_
      rintro ⟨sc', hsc', j', hj', -, hid'⟩
      obtain rfl := Option.some.inj (hscan.symm.trans hsc')
      obtain rfl := Option.some.inj (hjob.symm.trans hj')
      exact hid hid'.symm
  · intro sc' hsc'
    obtain rfl := Option.some.inj hsc'
    exact ⟨hsc.clock, by simp, hsc.nodup, hsc.due, by simp, by simp, by simp⟩

/-- A scan begins to fire a task. -/
theorem minute_next (hI : MinuteInv cfg w) {sc : CronScan} (hscan : w.scan = some sc) (hjob : sc.job = none)
    {id : String} {due : List String} (hdue : sc.due = id :: due) :
    MinuteInv cfg { w with
      scan := some { sc with due, job := (sc.rows.find? (·.id = id)).map (CronJob.start sc.now) } } := by
  have hsc := hI.scan sc hscan
  have hnodup := hsc.nodup
  rw [hdue, List.nodup_cons] at hnodup
  refine ⟨?_, ?_, hI.onTime⟩
  · intro r hr hrecurs _
    refine hI.table r hr hrecurs ?_
    rintro ⟨sc', hsc', j', hj', -⟩
    obtain rfl := Option.some.inj (hscan.symm.trans hsc')
    rw [hjob] at hj'
    simp at hj'
  · intro sc' hsc'
    obtain rfl := Option.some.inj hsc'
    have hstart : ∀ j, (sc.rows.find? (·.id = id)).map (CronJob.start sc.now) = some j →
        ∃ row, sc.rows.find? (·.id = id) = some row ∧ row.id = id ∧ j = CronJob.start sc.now row := by
      intro j hj
      obtain ⟨row, hrow, rfl⟩ := Option.map_eq_some_iff.1 hj
      exact ⟨row, hrow, by simpa using List.find?_some hrow, rfl⟩
    refine ⟨hsc.clock, ?_, hnodup.2, ?_, ?_, ?_, ?_⟩
    · intro j hj
      obtain ⟨row, -, -, rfl⟩ := hstart j hj
      rfl
    · exact fun id' hid' => hsc.due id' (hdue ▸ List.mem_cons_of_mem _ hid')
    · intro j hj _
      obtain ⟨row, -, hid, rfl⟩ := hstart j hj
      show row.id ∉ due
      rw [hid]
      exact hnodup.1
    · intro j hj hrecurs _
      obtain ⟨row, hrow, -, rfl⟩ := hstart j hj
      exact hsc.due id (hdue ▸ List.mem_cons_self) row hrow hrecurs
    · intro j hj hmark
      obtain ⟨row, -, -, rfl⟩ := hstart j hj
      unfold CronJob.start at hmark
      dsimp only at hmark
      split at hmark <;> simp at hmark

/-- Everything but a restart, which forgets that a task has been pushed. -/
theorem minute_step (hs : Sound w) (hI : MinuteInv cfg w) (hm : Moves cfg w a w') (ha : a ≠ .restart) :
    MinuteInv cfg w' := by
  have hsame : ∀ {log' : List (String × CronEvent)} {now' : Int}, w.now ≤ now' →
      (∀ id, pushesOf id log' = pushesOf id w.log) → ∀ sc ∈ w.scan, ScanInv cfg.zones log' now' sc :=
    fun hnow hlog sc hsc => (hI.scan sc hsc).relog hnow (fun _ _ row _ _ => hlog row.id)
      (fun j _ _ => hlog j.row.id) fun j hj hmark => (hs.job sc hsc j hj).marks hmark
  cases hm with
  | tick hnow => exact ⟨hI.table, hsame hnow fun _ => rfl, hI.onTime⟩
  | refuse | refuseTool | refuseDelay => exact hI
  | @insert a c timer db hadds hfresh hdb =>
    refine ⟨fun r hr hrecurs hnot => ?_, hI.scan, fun n hn hrecurs => ?_⟩
    · rw [CronDb.crons_cronAdd hdb, List.mem_append, List.mem_singleton] at hr
      rcases hr with hr | rfl
      · exact hI.table r hr hrecurs hnot
      · show DueAt _ (pushesOf c.id w.log) _
        rw [pushesOf_eq_nil hfresh.2.2]
        cases hadds with
        | method hclock hnext => exact dueAt_new hnext
        | tool hclock hnext => exact dueAt_new hnext
        | delay =>
          have honce : isOnce onceExpr = true := by decide
          exact absurd (honce.symm.trans hrecurs) (by simp)
    · rcases List.mem_append.1 hn with hn | hn
      · exact hI.onTime n hn hrecurs
      · obtain rfl := List.mem_singleton.1 hn
        show OnTime _ n (pushesOf n.id w.log)
        rw [pushesOf_eq_nil hfresh.2.2]
        exact onTime_nil _ n
  | remove ha hacks => exact ⟨fun r hr => hI.table r (CronDb.mem_cronRm.1 hr).1, hI.scan, hI.onTime⟩
  | ack hid =>
    refine ⟨fun r hr hrecurs hnot => ?_, hsame (Int.le_refl _) fun _ => pushesOf_removed, fun n hn hrecurs => ?_⟩
    · show DueAt _ (pushesOf r.id (w.log ++ _)) r
      rw [pushesOf_removed]
      exact hI.table r hr hrecurs hnot
    · show OnTime _ n (pushesOf n.id (w.log ++ _))
      rw [pushesOf_removed]
      exact hI.onTime n hn hrecurs
  | beat hclock hscan =>
    refine ⟨fun r hr hrecurs _ => hI.table r hr hrecurs ?_, fun sc hsc => ?_, hI.onTime⟩
    · rintro ⟨sc, hsc, -⟩
      rw [hscan] at hsc
      simp at hsc
    · obtain rfl := Option.some.inj hsc
      exact scanInv_start hI hscan hclock
  | @scanJob sc j answer hscan hjob =>
    have hok := hs.job sc hscan j hjob
    cases honce : isOnce j.row.expr with
    | true =>
      have hphase := hok.not_mark honce
      refine ⟨fun r hr hrecurs _ => table_once hs hI hok honce (row_of_advance hphase hr) hrecurs ?_,
        fun sc' hsc' => ?_, fun n hn hrecurs => onTime_once hs hI hok honce hn hrecurs⟩
      · rintro ⟨sc', hsc', j', hj', hmark, -⟩
        obtain rfl := Option.some.inj (hscan.symm.trans hsc')
        obtain rfl := Option.some.inj (hjob.symm.trans hj')
        exact hphase hmark
      · obtain rfl := Option.some.inj hsc'
        have hsc := scanInv_once hs hI hscan hok honce (j.advance cfg.zones answer w.now w.db).2.1
        have hnext : ∀ j', (j.advance cfg.zones answer w.now w.db).2.2 = some j' →
            j'.Ok w.added ∧ isOnce j'.row.expr = true := by
          intro j' hj'
          obtain ⟨hok', hrow⟩ := CronJob.ok_advance hok hj'
          exact ⟨hok', hrow ▸ honce⟩
        refine ⟨hsc.clock, fun j' hj' => ?_, hsc.nodup, hsc.due, fun j' hj' hrecurs => ?_,
          fun j' hj' hrecurs => ?_, fun j' hj' hmark => ?_⟩
        · exact (now_of_advance hj').trans (hsc.jobClock j hjob)
        · rw [(hnext j' hj').2] at hrecurs
          simp at hrecurs
        · rw [(hnext j' hj').2] at hrecurs
          simp at hrecurs
        · exact absurd hmark ((hnext j' hj').1.not_mark (hnext j' hj').2)
    | false =>
      cases hphase : j.phase with
      | claim =>
        rw [hok.claims hphase] at honce
        simp at honce
      | turn =>
        simp only [CronJob.advance, hphase, honce, Bool.false_eq_true, if_false]
        exact minute_push hs hI hscan hjob honce hphase _ rfl rfl
      | mark =>
        simp only [CronJob.advance, hphase]
        have hmarked := minute_mark hs hI hscan hjob hphase
        have hlog : w.log ++ entries j.row.id none = w.log := List.append_nil _
        rw [hlog]
        exact hmarked
  | scanNext hscan hjob hdue => exact minute_next hI hscan hjob hdue
  | @scanEnd sc answer hscan hjob hdue =>
    refine ⟨fun r hr hrecurs _ => hI.table r hr hrecurs ?_, by simp, hI.onTime⟩
    rintro ⟨sc', hsc', j', hj', -⟩
    obtain rfl := Option.some.inj (hscan.symm.trans hsc')
    rw [hjob] at hj'
    simp at hj'
  | @timerJob id answer j htimer =>
    have hok := (hs.timerJob id j htimer).2
    have honce := hs.once_of_timer htimer
    have hphase := hok.not_mark honce
    exact ⟨fun r hr hrecurs hnot => table_once hs hI hok honce (row_of_advance hphase hr) hrecurs hnot,
      fun sc hsc => scanInv_once hs hI hsc hok honce _, fun n hn hrecurs => onTime_once hs hI hok honce hn hrecurs⟩
  | timerWake | timerEnd => exact ⟨hI.table, hI.scan, hI.onTime⟩
  | restart => exact absurd rfl ha

end Minutes

/-! ## Both -/

variable {cfg : CronCfg}

structure PushInv (cfg : CronCfg) (w : CronWorld) : Prop where
  sound : Sound w
  once : OnceInv w
  minute : MinuteInv cfg w

theorem pushInv_init (cfg : CronCfg) (now : Int) : PushInv cfg (init now) where
  sound := sound_init now
  once := by simp [OnceInv, init]
  minute := ⟨by simp [init, CronDb.empty], by simp [init], by simp [init]⟩

theorem pushInv_step {w w' : CronWorld} {a : Act} (hI : PushInv cfg w) (ha : a ≠ .restart)
    (h : step cfg w a = some w') : PushInv cfg w' where
  sound := sound_step hI.sound (moves_of_step h)
  once := once_step hI.sound hI.once (moves_of_step h)
  minute := minute_step hI.sound hI.minute (moves_of_step h) ha

theorem PushInv.pushed {w : CronWorld} (hI : PushInv cfg w) : PushedOnTime cfg w := by
  intro n hn
  cases honce : isOnce n.expr with
  | true => exact (hI.once n hn honce).atMost
  | false => exact hI.minute.onTime n hn honce

/-- Whatever the timers, the scans and the removals do in which order: a task that fires once reminds at most
once, and a recurring task at most once for each matching minute and not before it. -/
theorem pushed_on_time (cfg : CronCfg) (now : Int) (as : List Act) (hup : ∀ a ∈ as, a ≠ .restart) :
    Steps.AllStates (step cfg) (PushedOnTime cfg) (init now) as := by
  have hstep : ∀ w a w', PushInv cfg w → a ≠ .restart → step cfg w a = some w' → PushInv cfg w' :=
    fun _ _ _ hI ha h => pushInv_step hI ha h
  exact Steps.allStates_of_guarded hstep (fun _ hI => hI.pushed) (pushInv_init cfg now) (Steps.AllSteps.of_mem hup _)

/-- A timer and a scan are after one task: the timer has claimed it, and the scan finds it gone. -/
theorem pushed_on_time_race :
    Steps.AllStates (step testCron) (PushedOnTime testCron) (init 0)
      [.delay 10 "tea" 0 "c", .tick 10, .timer "c" "", .beat 10, .scan "", .timer "c" "", .scan "", .timer "c" "",
        .scan ""] :=
  pushed_on_time testCron 0 _ (by decide)

end CronWorld

end OhMyClaw
