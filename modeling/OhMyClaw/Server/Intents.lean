import OhMyClaw.Lib.Ledger
import OhMyClaw.Lib.Steps
import OhMyClaw.Core.Memory
import OhMyClaw.Core.Proactive
import OhMyClaw.Core.Prompt
import OhMyClaw.Proto.Frame
import OhMyClaw.Server.Session
import OhMyClaw.Store.Intents

/-!
# Standing intents

A message that touches on a standing intent reminds the model of it.  The scan reads the list of
intents once and decides by what it read; the firing is recorded by a write of its own, one intent
after the other.  Sessions scan side by side, so one session may decide by a row that another is
about to change.

    handleIntentAdd_ok       what is accepted has a text and keywords
    kept_of_apart            every intent keeps to its budget, its cooldown and its expiry as long as no
                             two sessions have the same intent to fire at a time
    kept_fails_on_overlap    two sessions that scan at once fire an intent with a budget of one twice
-/

namespace OhMyClaw

structure IntentDefaults where
  cooldownSecs : Int
  budget : UInt32
  /-- 0 for no expiry. -/
  expiryDays : UInt32
  maxPerTurn : Nat
deriving DecidableEq, Repr

def IntentDefaults.default : IntentDefaults :=
  { cooldownSecs := 24 * 3600, budget := 3, expiryDays := 90, maxPerTurn := 3 }

structure IntentAddParams where
  text : String
  keywords : List String
  cooldownSecs : Option Int
  budget : Option UInt32
  expiryDays : Option UInt32
deriving DecidableEq, Repr

/-- What the method writes; `now` is its clock and `id` the new id. -/
def handleIntentAdd (defaults : IntentDefaults) (p : IntentAddParams) (now : Int) (id : String) :
    Except ProtoError NewStandingIntent :=
  let text := RustStr.trim p.text.toList
  if text = [] then .error { kind := .badRequest, message := "intent text 不能为空" }
  else
    let keywords := (p.keywords.map fun k => RustStr.trim k.toList).filter (· ≠ [])
    if keywords = [] then
      .error { kind := .badRequest, message := "至少需一个非空 keyword（话题触发靠关键词命中）" }
    else
      let expiryDays := p.expiryDays.getD defaults.expiryDays
      .ok
        { id, text := String.ofList text, keywords := keywords.map String.ofList
          cooldownSecs := p.cooldownSecs.getD defaults.cooldownSecs
          budget := p.budget.getD defaults.budget
          expiryAt := if expiryDays = 0 then none else some (now + expiryDays.toNat * 86400) }

theorem handleIntentAdd_ok {defaults : IntentDefaults} {p : IntentAddParams} {now : Int} {id : String}
    {i : NewStandingIntent} (h : handleIntentAdd defaults p now id = .ok i) :
    i.id = id ∧ i.text ≠ "" ∧ i.keywords ≠ [] ∧ ∀ k ∈ i.keywords, k ≠ "" := by
  simp only [handleIntentAdd] at h
  split at h
  · simp at h
  · next htext =>
    split at h
    · simp at h
    · next hkeywords =>
      obtain rfl := Except.ok.inj h
      refine ⟨rfl, ?_, ?_, ?_⟩
      · rw [← String.toList_inj.ne, String.toList_ofList]
        exact htext
      · rw [Ne, List.map_eq_nil_iff]
        exact hkeywords
      · intro k hk
        obtain ⟨cs, hcs, rfl⟩ := List.mem_map.1 hk
        rw [← String.toList_inj.ne, String.toList_ofList]
        simpa using (List.mem_filter.1 hcs).2

/-! ## One scan -/

namespace StandingIntentRow

/-- The seconds from its creation to its expiry, 0 for none.  An intent that expires before it is created has
no such number: 0 would keep it for good. -/
def expirySecs (row : StandingIntentRow) : Option Int :=
  match row.expiryAt with
  | none => some 0
  | some expiry => if expiry - row.createdAt ≤ 0 then none else some (expiry - row.createdAt)

/-- Whether the row, as it was read, allows it to fire. -/
def mayFire (row : StandingIntentRow) (now : Int) : Bool :=
  match row.expirySecs with
  | none => false
  | some expirySecs =>
    allowFire { createdSecs := row.createdAt, lastFiredSecs := row.lastFiredAt, firedCount := row.firedCount } now
      { cooldownSecs := row.cooldownSecs, budget := row.budget, expirySecs } = .allow

/-- The hidden reminder. -/
def memLine (row : StandingIntentRow) : MemLine :=
  { key := "intent-" ++ row.id, text := "待办提醒（用户此前交代，现因话题命中而唤起）：" ++ row.text }

theorem mayFire_spec {row : StandingIntentRow} {now : Int} (h : row.mayFire now = true) :
    row.firedCount < row.budget ∧ (∀ last ∈ row.lastFiredAt, row.cooldownSecs ≤ now - last) ∧
      ∀ expiry ∈ row.expiryAt, now ≤ expiry := by
  unfold mayFire expirySecs at h
  cases hexpiry : row.expiryAt with
  | none =>
    rw [hexpiry] at h
    obtain ⟨-, hbudget, hcool⟩ := allowFire_eq_allow.1 (of_decide_eq_true h)
    exact ⟨hbudget, hcool, by simp⟩
  | some expiry =>
    simp only [hexpiry] at h
    by_cases hspan : expiry - row.createdAt ≤ 0
    · simp [hspan] at h
    · rw [if_neg hspan] at h
      obtain ⟨hlive, hbudget, hcool⟩ := allowFire_eq_allow.1 (of_decide_eq_true h)
      refine ⟨hbudget, hcool, fun e he => ?_⟩
      obtain rfl := Option.some.inj he
      simp only at hlive
      omega

end StandingIntentRow

/-- A scan between two of its writes. -/
structure IntentScan where
  /-- The list, as it was when the scan began. -/
  rows : List StandingIntentRow
  /-- The clock, read right after the list. -/
  now : Int
  /-- What the message touches on and the scan has not come to. -/
  hits : List String
  /-- The reminders of this turn. -/
  out : List MemLine
  /-- The intent that fired and is to be recorded. -/
  marking : Option String
deriving DecidableEq, Repr

namespace IntentScan

def start (toLowercase : List Char → List Char) (rows : List StandingIntentRow) (userMsg : String) (now : Int) :
    IntentScan where
  rows := rows
  now := now
  hits := intentPrefilter toLowercase userMsg (rows.map fun r => { id := r.id, keywords := r.keywords })
  out := []
  marking := none

/-- The row of an intent the scan would fire if it came to it. -/
def ready (sc : IntentScan) (id : String) : Option StandingIntentRow :=
  (sc.rows.find? (·.id = id)).filter (·.mayFire sc.now)

/-- Go on to the next intent that fires; the row and the hits behind it. -/
def nextFire (cap : Nat) (sc : IntentScan) : List String → Option (StandingIntentRow × List String)
  | [] => none
  | id :: hits =>
    if cap ≤ sc.out.length then none
    else
      match sc.ready id with
      | some row => some (row, hits)
      | none => nextFire cap sc hits

/-- The intents that the scan has fired and not recorded, or has yet to come to and would fire. -/
def owed (sc : IntentScan) : List String := sc.marking.toList ++ sc.hits.filter fun id => (sc.ready id).isSome

theorem ready_eq_some {sc : IntentScan} {id : String} {row : StandingIntentRow} (h : sc.ready id = some row) :
    row ∈ sc.rows ∧ row.id = id ∧ row.mayFire sc.now = true := by
  obtain ⟨hfind, hfire⟩ := Option.filter_eq_some_iff.1 h
  exact ⟨List.mem_of_find?_eq_some hfind, by simpa using List.find?_some hfind, hfire⟩

theorem mem_owed {sc : IntentScan} {id : String} :
    id ∈ sc.owed ↔ sc.marking = some id ∨ id ∈ sc.hits ∧ ∃ row, sc.ready id = some row := by
  simp [owed, Option.isSome_iff_exists]

/-- The intent that fires is the first that is ready; those before it are passed over. -/
theorem nextFire_eq_some {cap : Nat} {sc : IntentScan} {ids hits : List String} {row : StandingIntentRow}
    (h : sc.nextFire cap ids = some (row, hits)) :
    ∃ passed, ids = passed ++ row.id :: hits ∧ sc.ready row.id = some row := by
  induction ids with
  | nil => simp [nextFire] at h
  | cons id ids ih =>
    unfold nextFire at h
    split at h
    · simp at h
    · split at h
      · next hready =>
        obtain ⟨rfl, rfl⟩ := Prod.mk.inj (Option.some.inj h)
        obtain ⟨-, hid, -⟩ := ready_eq_some hready
        exact ⟨[], by rw [hid]; rfl, by rw [hid]; exact hready⟩
      · obtain ⟨passed, hids, hready⟩ := ih h
        exact ⟨id :: passed, by rw [hids]; rfl, hready⟩

theorem nodup_hits_start (toLowercase : List Char → List Char) {rows : List StandingIntentRow}
    (hrows : (rows.map (·.id)).Nodup) (userMsg : String) (now : Int) :
    (start toLowercase rows userMsg now).hits.Nodup := by
  refine List.Nodup.sublist (List.filter_sublist.map _) ?_
  rw [List.map_map]
  exact hrows

end IntentScan

/-! ## One intent -/

/-- What an intent promised when it was added, of the times it fired. -/
structure NewStandingIntent.KeepsTo (n : NewStandingIntent) (ts : List Int) : Prop where
  budget : ts.length ≤ n.budget.toNat
  cooldown : 0 < n.cooldownSecs → ts.Pairwise fun a b => n.cooldownSecs ≤ b - a
  expiry : ∀ t ∈ ts, ∀ e ∈ n.expiryAt, t ≤ e

/-- The row of the table is the intent's. -/
structure IntentRow.Of (r : IntentRow) (n : NewStandingIntent) : Prop where
  id : r.id = n.id
  cooldown : r.cooldownSecs = n.cooldownSecs
  budget : r.budget = n.budget.toNat
  expiry : r.expiryAt = n.expiryAt

/-- The row has counted the times its intent fired. -/
structure IntentRow.Counts (r : IntentRow) (ts : List Int) : Prop where
  count : r.firedCount = ts.length
  last : r.lastFiredAt = ts.getLast?

/-- A row that was read is the intent's and has counted the times it fired. -/
structure StandingIntentRow.Current (row : StandingIntentRow) (n : NewStandingIntent) (ts : List Int) : Prop where
  id : row.id = n.id
  cooldown : row.cooldownSecs = n.cooldownSecs
  budget : row.budget = n.budget
  expiry : row.expiryAt = n.expiryAt
  count : row.firedCount.toNat = ts.length
  last : row.lastFiredAt = ts.getLast?

namespace NewStandingIntent

variable {n : NewStandingIntent} {ts : List Int}

theorem keepsTo_nil : n.KeepsTo [] := ⟨Nat.zero_le _, fun _ => List.Pairwise.nil, by simp⟩

/-- Within the budget the counter does not wrap. -/
theorem readRow_current {r : IntentRow} (hof : r.Of n) (hcounts : r.Counts ts) (hkeeps : n.KeepsTo ts) :
    (IntentDb.readRow r).Current n ts where
  id := hof.id
  cooldown := hof.cooldown
  budget := by
    show UInt32.ofInt r.budget = n.budget
    rw [hof.budget, ← UInt32.toNat_inj]
    exact IntentDb.toNat_ofColumn n.budget.toNat_lt
  expiry := hof.expiry
  count := by
    show (UInt32.ofInt r.firedCount).toNat = ts.length
    have hlt : ts.length < UInt32.size := Nat.lt_of_le_of_lt hkeeps.budget n.budget.toNat_lt
    rw [hcounts.count]
    exact IntentDb.toNat_ofColumn hlt
  last := hcounts.last

/-- An intent that fires by an up-to-date row keeps to what it promised. -/
theorem keepsTo_snoc {row : StandingIntentRow} (hcur : row.Current n ts) {now : Int} (hfire : row.mayFire now = true)
    (hkeeps : n.KeepsTo ts) : n.KeepsTo (ts ++ [now]) := by
  obtain ⟨hbudget, hcool, hexpiry⟩ := StandingIntentRow.mayFire_spec hfire
  constructor
  · have hlt : row.firedCount.toNat < row.budget.toNat := UInt32.lt_iff_toNat_lt.1 hbudget
    rw [hcur.count, hcur.budget] at hlt
    rw [List.length_append, List.length_singleton]
    exact hlt
  · intro hpos
    refine Ledger.pairwise_snoc (fun a b c hab hbc => ?_) (hkeeps.cooldown hpos) fun l hl => ?_
    · omega
    · rw [← hcur.last] at hl
      rw [← hcur.cooldown]
      exact hcool l hl
  · intro t ht e he
    rw [List.mem_append, List.mem_singleton] at ht
    rcases ht with ht | rfl
    · exact hkeeps.expiry t ht e he
    · rw [← hcur.expiry] at he
      exact hexpiry e he

end NewStandingIntent

theorem counts_fireRow {r : IntentRow} {ts : List Int} (h : r.Counts ts) (now : Int) :
    (IntentDb.fireRow r.id now r).Counts (ts ++ [now]) := by
  unfold IntentDb.fireRow
  rw [if_pos rfl]
  constructor
  · show r.firedCount + 1 = _
    rw [h.count, List.length_append, List.length_singleton, Nat.cast_add, Nat.cast_one]
  · simp

/-! ## The server -/

structure IntentCfg where
  defaults : IntentDefaults
  toLowercase : List Char → List Char
  order : VisitOrder IntentRow

/-- The table and the scans of the sessions.  `added` and `fired` are histories: the intents ever written, and
every reminder given to the model with the time of its scan. -/
structure IntentWorld where
  db : IntentDb
  scans : IdMap IntentScan
  added : List NewStandingIntent
  fired : List (String × Int)

namespace IntentWorld

inductive Act where
  /-- The clock of the method, the new id, and the clock of the store. -/
  | add (p : IntentAddParams) (now : Int) (id : String) (createdAt : Int)
  | rm (id : String)
  /-- A session begins a run: the list is read, then the clock. -/
  | begin (session : String) (userMsg : String) (now : Int)
  /-- The scan of a session records the intent it fired. -/
  | mark (session : String)
deriving DecidableEq, Repr

def init : IntentWorld := { db := .empty, scans := ∅, added := [], fired := [] }

def put (w : IntentWorld) (session : String) (sc : IntentScan) : IntentWorld :=
  { w with scans := w.scans.insert session sc }

/-- The scan of a session up to its next write or its end. -/
def proceed (cap : Nat) (w : IntentWorld) (session : String) (sc : IntentScan) : IntentWorld :=
  match sc.nextFire cap sc.hits with
  | some (row, hits) =>
    { w.put session { sc with hits, out := sc.out ++ [row.memLine], marking := some row.id } with
      fired := w.fired ++ [(row.id, sc.now)] }
  | none => { w with scans := w.scans.erase session }

variable (cfg : IntentCfg)

/-- No id is issued twice. -/
def step (w : IntentWorld) : Act → Option IntentWorld
  | .add p now id createdAt =>
    if id ∈ w.added.map (·.id) then none
    else
      match handleIntentAdd cfg.defaults p now id with
      | .error _ => some w
      | .ok i => (w.db.intentAdd i createdAt).map fun db => { w with db, added := w.added ++ [i] }
  | .rm id => some { w with db := (w.db.intentRm id).2 }
  | .begin session userMsg now =>
    match w.scans.lookup session with
    | some _ => none
    | none =>
      some (w.proceed cfg.defaults.maxPerTurn session (.start cfg.toLowercase (w.db.intentList cfg.order) userMsg now))
  | .mark session =>
    match w.scans.lookup session with
    | none => none
    | some sc =>
      match sc.marking with
      | none => none
      | some id =>
        some (proceed cfg.defaults.maxPerTurn { w with db := w.db.intentMarkFired id sc.now } session
          { sc with marking := none })

/-! ## What an intent keeps to -/

def Kept (w : IntentWorld) : Prop := ∀ n ∈ w.added, n.KeepsTo (Ledger.under n.id w.fired)

/-- A session begins to scan while another has an intent to fire or to record that the new scan would fire as
well. -/
def Overlaps (w : IntentWorld) : Act → Prop
  | .begin _ userMsg now => ∃ e ∈ w.scans.entries, ∃ id ∈ e.2.owed,
      id ∈ (IntentScan.start cfg.toLowercase (w.db.intentList cfg.order) userMsg now).owed
  | _ => False

/-! ## The invariant -/

/-- A scan decides by rows that are up to date, and does not come back to what it fired. -/
structure ScanOk (added : List NewStandingIntent) (fired : List (String × Int)) (sc : IntentScan) : Prop where
  nodup : sc.hits.Nodup
  passed : ∀ id ∈ sc.marking, id ∉ sc.hits
  current : ∀ id ∈ sc.hits, ∀ row, sc.ready id = some row → ∃ n ∈ added, row.Current n (Ledger.under id fired)

structure Inv (w : IntentWorld) : Prop where
  ids : (w.added.map (·.id)).Nodup
  known : ∀ p ∈ w.fired, p.1 ∈ w.added.map (·.id)
  kept : w.Kept
  rows : ∀ r ∈ w.db.intents, ∃ n ∈ w.added, r.Of n
  counts : ∀ r ∈ w.db.intents, (∀ s sc, w.scans.lookup s = some sc → sc.marking ≠ some r.id) →
    r.Counts (Ledger.under r.id w.fired)
  marking : ∀ s sc id, w.scans.lookup s = some sc → sc.marking = some id →
    ∃ before, Ledger.under id w.fired = before ++ [sc.now] ∧ ∀ r ∈ w.db.intents, r.id = id → r.Counts before
  scans : ∀ s sc, w.scans.lookup s = some sc → ScanOk w.added w.fired sc
  apart : ∀ s s' sc sc' id, w.scans.lookup s = some sc → w.scans.lookup s' = some sc' → s ≠ s' →
    id ∈ sc.owed → id ∉ sc'.owed

theorem inv_init : Inv init where
  ids := List.nodup_nil
  known := by simp [init]
  kept := by simp [Kept, init]
  rows := by simp [init, IntentDb.empty]
  counts := by simp [init, IntentDb.empty]
  marking := by simp [init]
  scans := by simp [init]
  apart := by simp [init]

section Steps

variable {cfg : IntentCfg} {w : IntentWorld}

theorem lookup_put {session s : String} {sc sc' : IntentScan} (h : (w.put session sc).scans.lookup s = some sc') :
    s = session ∧ sc' = sc ∨ s ≠ session ∧ w.scans.lookup s = some sc' :=
  IdMap.of_lookup_insert h

theorem lookup_of_put_ne {session s : String} {sc sc' : IntentScan} (hs : s ≠ session)
    (h : w.scans.lookup s = some sc') : (w.put session sc).scans.lookup s = some sc' := by
  rw [put, AList.lookup_insert_ne hs]
  exact h

/-- The scan of a session fires an intent that is ready. -/
theorem inv_fire {session : String} {sc : IntentScan} (hI : Inv (w.put session sc)) (hmark : sc.marking = none)
    {passed hits : List String} {row : StandingIntentRow} (hhits : sc.hits = passed ++ row.id :: hits)
    (hready : sc.ready row.id = some row) (line : MemLine) :
    Inv { w.put session { sc with hits, out := sc.out ++ [line], marking := some row.id } with
      fired := w.fired ++ [(row.id, sc.now)] } := by
  have hself : (w.put session sc).scans.lookup session = some sc := AList.lookup_insert _
  have hok := hI.scans session sc hself
  have hin : row.id ∈ sc.hits := by simp [hhits]
  have howed : row.id ∈ sc.owed := IntentScan.mem_owed.2 (Or.inr ⟨hin, row, hready⟩)
  obtain ⟨n, hn, hcur⟩ := hok.current row.id hin row hready
  obtain ⟨-, -, hfire⟩ := IntentScan.ready_eq_some hready
  have hnodup := hok.nodup
  rw [hhits] at hnodup
  obtain ⟨hnotin, hrest⟩ := List.nodup_cons.1 (List.nodup_append.1 hnodup).2.1
  have hsub : ∀ id ∈ hits, id ∈ sc.hits := fun id hid => by simp [hhits, hid]
  have hother : ∀ s sc', s ≠ session → w.scans.lookup s = some sc' → row.id ∉ sc'.owed := fun s sc' hs h =>
    hI.apart session s sc sc' row.id hself (lookup_of_put_ne hs h) (Ne.symm hs) howed
  have hnew : ∀ id, id ∈ IntentScan.owed { sc with hits, out := sc.out ++ [line], marking := some row.id } →
      id ∈ sc.owed := by
    intro id hid
    rcases IntentScan.mem_owed.1 hid with hid | ⟨hid, hr⟩
    · obtain rfl := Option.some.inj hid
      exact howed
    · exact IntentScan.mem_owed.2 (Or.inr ⟨hsub id hid, hr⟩)
  refine ⟨hI.ids, ?_, ?_, hI.rows, ?_, ?_, ?_, ?_⟩
  · intro p hp
    rcases List.mem_append.1 hp with hp | hp
    · exact hI.known p hp
    · obtain rfl := List.mem_singleton.1 hp
      exact List.mem_map.2 ⟨n, hn, hcur.id.symm⟩
  · intro m hm
    show m.KeepsTo (Ledger.under m.id (w.fired ++ [(row.id, sc.now)]))
    by_cases hid : row.id = m.id
    · obtain rfl : n = m := List.inj_on_of_nodup_map hI.ids hn hm (hcur.id.symm.trans hid)
      rw [hid, Ledger.under_snoc_self]
      rw [hid] at hcur
      exact NewStandingIntent.keepsTo_snoc hcur hfire (hI.kept n hn)
    · rw [Ledger.under_snoc_ne hid]
      exact hI.kept m hm
  · intro r hr hnone
    have hid : row.id ≠ r.id := fun h => hnone session _ (AList.lookup_insert _) (congrArg some h)
    show r.Counts (Ledger.under r.id (w.fired ++ [(row.id, sc.now)]))
    rw [Ledger.under_snoc_ne hid]
    refine hI.counts r hr fun s sc' hs => ?_
    rcases lookup_put hs with ⟨-, rfl⟩ | ⟨hs, h⟩
    · simp [hmark]
    · exact hnone s sc' (lookup_of_put_ne hs h)
  · intro s sc' id hs hm
    show ∃ before, Ledger.under id (w.fired ++ [(row.id, sc.now)]) = before ++ [sc'.now] ∧ _
    rcases lookup_put hs with ⟨-, rfl⟩ | ⟨hs, h⟩
    · obtain rfl := Option.some.inj hm
      refine ⟨Ledger.under row.id w.fired, Ledger.under_snoc_self _ _ _, fun r hr hid => ?_⟩
      rw [← hid]
      refine hI.counts r hr fun s' sc' hs' hm' => ?_
      rcases lookup_put hs' with ⟨-, rfl⟩ | ⟨hs', h'⟩
      · simp [hmark] at hm'
      · rw [hid] at hm'
        exact hother s' sc' hs' h' (IntentScan.mem_owed.2 (Or.inl hm'))
    · have hid : row.id ≠ id := fun hid => hother s sc' hs h (IntentScan.mem_owed.2 (Or.inl (hid ▸ hm)))
      rw [Ledger.under_snoc_ne hid]
      exact hI.marking s sc' id (lookup_of_put_ne hs h) hm
  · intro s sc' hs
    have hcurrent : ∀ sc₂ : IntentScan, ScanOk w.added w.fired sc₂ → ∀ id ∈ sc₂.hits, id ≠ row.id →
        ∀ row', sc₂.ready id = some row' →
        ∃ n ∈ w.added, row'.Current n (Ledger.under id (w.fired ++ [(row.id, sc.now)])) := by
      intro sc₂ hok₂ id hid hne row' hrow'
      rw [Ledger.under_snoc_ne (Ne.symm hne)]
      exact hok₂.current id hid row' hrow'
    rcases lookup_put hs with ⟨-, rfl⟩ | ⟨hs, h⟩
    · refine ⟨hrest, fun id hid => ?_, fun id hid => ?_⟩
      · obtain rfl := Option.some.inj hid
        exact hnotin
      · exact hcurrent sc hok id (hsub id hid) fun h => hnotin (h ▸ hid)
    · have hok' := hI.scans s sc' (lookup_of_put_ne hs h)
      refine ⟨hok'.nodup, hok'.passed, fun id hid row' hrow' => ?_⟩
      have hne : id ≠ row.id := fun hid' => hother s sc' hs h
        (IntentScan.mem_owed.2 (Or.inr ⟨hid' ▸ hid, row', hid' ▸ hrow'⟩))
      exact hcurrent sc' hok' id hid hne row' hrow'
  · intro s s' sc₁ sc₂ id hs hs' hne h₁ h₂
    rcases lookup_put hs with ⟨rfl, rfl⟩ | ⟨hs, h⟩
    · rcases lookup_put hs' with ⟨rfl, -⟩ | ⟨hs', h'⟩
      · exact hne rfl
      · exact hI.apart s s' sc sc₂ id hself (lookup_of_put_ne hs' h') hne (hnew id h₁) h₂
    · rcases lookup_put hs' with ⟨rfl, rfl⟩ | ⟨hs', h'⟩
      · exact hI.apart s s' sc₁ sc id (lookup_of_put_ne hs h) hself hne h₁ (hnew id h₂)
      · exact hI.apart s s' sc₁ sc₂ id (lookup_of_put_ne hs h) (lookup_of_put_ne hs' h') hne h₁ h₂

/-- The scan of a session goes on to its next write. -/
theorem inv_proceed {session : String} {sc : IntentScan} (hI : Inv (w.put session sc)) (hmark : sc.marking = none)
    (cap : Nat) : Inv (w.proceed cap session sc) := by
  unfold proceed
  cases hnext : sc.nextFire cap sc.hits with
  | none =>
    -- The scan ends; nothing of it was still to be recorded.
    have hlookup : ∀ {s sc'}, (w.scans.erase session).lookup s = some sc' →
        (w.put session sc).scans.lookup s = some sc' := by
      intro s sc' h
      obtain ⟨hs, h⟩ := IdMap.of_lookup_erase h
      exact lookup_of_put_ne hs h
    have hback : ∀ {s sc'}, (w.put session sc).scans.lookup s = some sc' → sc'.marking ≠ none →
        (w.scans.erase session).lookup s = some sc' := by
      intro s sc' h hne
      rcases lookup_put h with ⟨-, rfl⟩ | ⟨hs, h⟩
      · exact absurd hmark hne
      · rw [AList.lookup_erase_ne hs]
        exact h
    exact
      { ids := hI.ids
        known := hI.known
        kept := hI.kept
        rows := hI.rows
        counts := fun r hr hnone => hI.counts r hr fun s sc' hs hm =>
          hnone s sc' (hback hs (by simp [hm])) hm
        marking := fun s sc' id hs => hI.marking s sc' id (hlookup hs)
        scans := fun s sc' hs => hI.scans s sc' (hlookup hs)
        apart := fun s s' sc₁ sc₂ id hs hs' => hI.apart s s' sc₁ sc₂ id (hlookup hs) (hlookup hs') }
  | some next =>
    obtain ⟨row, hits⟩ := next
    obtain ⟨passed, hhits, hready⟩ := IntentScan.nextFire_eq_some hnext
    exact inv_fire hI hmark hhits hready row.memLine

/-- The scan of a session has recorded what it fired. -/
theorem inv_marked {session id : String} {sc : IntentScan} (hI : Inv w) (hsc : w.scans.lookup session = some sc)
    (hmark : sc.marking = some id) :
    Inv (put { w with db := w.db.intentMarkFired id sc.now } session { sc with marking := none }) := by
  have hok := hI.scans session sc hsc
  have howed : id ∈ sc.owed := IntentScan.mem_owed.2 (Or.inl hmark)
  have hother : ∀ s sc', s ≠ session → w.scans.lookup s = some sc' → sc'.marking ≠ some id := fun s sc' hs h hm =>
    hI.apart session s sc sc' id hsc h (Ne.symm hs) howed (IntentScan.mem_owed.2 (Or.inl hm))
  have hnew : ∀ id', id' ∈ IntentScan.owed { sc with marking := none } → id' ∈ sc.owed := by
    intro id' hid
    rcases IntentScan.mem_owed.1 hid with hid | hid
    · simp at hid
    · exact IntentScan.mem_owed.2 (Or.inr hid)
  have hrow : ∀ r' ∈ (w.db.intentMarkFired id sc.now).intents,
      ∃ r ∈ w.db.intents, IntentDb.fireRow id sc.now r = r' := fun r' hr' => List.mem_map.1 hr'
  refine ⟨hI.ids, hI.known, hI.kept, ?_, ?_, ?_, ?_, ?_⟩
  · intro r' hr'
    obtain ⟨r, hr, rfl⟩ := hrow r' hr'
    obtain ⟨n, hn, hof⟩ := hI.rows r hr
    refine ⟨n, hn, ?_⟩
    unfold IntentDb.fireRow
    split
    · exact ⟨hof.id, hof.cooldown, hof.budget, hof.expiry⟩
    · exact hof
  · intro r' hr' hnone
    obtain ⟨r, hr, rfl⟩ := hrow r' hr'
    rw [IntentDb.id_fireRow] at hnone ⊢
    by_cases hid : r.id = id
    · obtain ⟨before, hunder, hcounts⟩ := hI.marking session sc id hsc hmark
      show (IntentDb.fireRow id sc.now r).Counts (Ledger.under r.id w.fired)
      rw [hid, hunder, ← hid]
      exact counts_fireRow (hcounts r hr hid) sc.now
    · unfold IntentDb.fireRow
      rw [if_neg hid]
      refine hI.counts r hr fun s sc' hs hm => ?_
      by_cases hs' : s = session
      · subst hs'
        obtain rfl := Option.some.inj (hsc.symm.trans hs)
        exact hid (Option.some.inj (hm.symm.trans hmark))
      · exact hnone s sc' (lookup_of_put_ne hs' hs) hm
  · intro s sc' id' hs hm
    rcases lookup_put hs with ⟨-, rfl⟩ | ⟨hs, h⟩
    · simp at hm
    · obtain ⟨before, hunder, hcounts⟩ := hI.marking s sc' id' h hm
      refine ⟨before, hunder, fun r' hr' hid => ?_⟩
      obtain ⟨r, hr, rfl⟩ := hrow r' hr'
      rw [IntentDb.id_fireRow] at hid
      have hne : r.id ≠ id := fun h' => hother s sc' hs h (hm.trans (congrArg some (hid.symm.trans h')))
      unfold IntentDb.fireRow
      rw [if_neg hne]
      exact hcounts r hr hid
  · intro s sc' hs
    rcases lookup_put hs with ⟨-, rfl⟩ | ⟨hs, h⟩
    · exact ⟨hok.nodup, by simp, hok.current⟩
    · exact hI.scans s sc' h
  · intro s s' sc₁ sc₂ id' hs hs' hne h₁ h₂
    rcases lookup_put hs with ⟨rfl, rfl⟩ | ⟨hs, h⟩
    · rcases lookup_put hs' with ⟨rfl, -⟩ | ⟨hs', h'⟩
      · exact hne rfl
      · exact hI.apart s s' sc sc₂ id' hsc h' hne (hnew id' h₁) h₂
    · rcases lookup_put hs' with ⟨rfl, rfl⟩ | ⟨hs', h'⟩
      · exact hI.apart s s' sc₁ sc id' h hsc hne h₁ (hnew id' h₂)
      · exact hI.apart s s' sc₁ sc₂ id' h h' hne h₁ h₂

/-- A session has read the list, and no other has an intent to fire that it would fire as well. -/
theorem inv_start {session userMsg : String} {now : Int} (hI : Inv w) (hidle : w.scans.lookup session = none)
    (hapart : ¬ Overlaps cfg w (.begin session userMsg now)) :
    Inv (w.put session (.start cfg.toLowercase (w.db.intentList cfg.order) userMsg now)) := by
  have hother : ∀ s sc' id, w.scans.lookup s = some sc' → id ∈ sc'.owed →
      id ∉ (IntentScan.start cfg.toLowercase (w.db.intentList cfg.order) userMsg now).owed :=
    fun s sc' id hs hid hid' => hapart ⟨⟨s, sc'⟩, AList.mem_lookup_iff.1 hs, id, hid, hid'⟩
  refine ⟨hI.ids, hI.known, hI.kept, hI.rows, ?_, ?_, ?_, ?_⟩
  · intro r hr hnone
    refine hI.counts r hr fun s sc' hs => ?_
    by_cases hs' : s = session
    · rw [hs', hidle] at hs
      simp at hs
    · exact hnone s sc' (lookup_of_put_ne hs' hs)
  · intro s sc' id hs hm
    rcases lookup_put hs with ⟨-, rfl⟩ | ⟨hs, h⟩
    · simp [IntentScan.start] at hm
    · exact hI.marking s sc' id h hm
  · intro s sc' hs
    rcases lookup_put hs with ⟨-, rfl⟩ | ⟨hs, h⟩
    · refine ⟨IntentScan.nodup_hits_start _ (w.db.nodup_ids_intentList cfg.order) _ _, by simp [IntentScan.start],
        fun id hid row hready => ?_⟩
      have howed := IntentScan.mem_owed.2 (Or.inr ⟨hid, row, hready⟩)
      obtain ⟨hrow, hrowid, -⟩ := IntentScan.ready_eq_some hready
      obtain ⟨r, hr, rfl⟩ := IntentDb.mem_intentList.1 hrow
      obtain ⟨n, hn, hof⟩ := hI.rows r hr
      have hrid : r.id = id := hrowid
      have hcounts := hI.counts r hr fun s' sc' hs' hm =>
        hother s' sc' id hs' (IntentScan.mem_owed.2 (Or.inl (hrid ▸ hm))) howed
      rw [hof.id] at hrid hcounts
      rw [← hrid]
      exact ⟨n, hn, NewStandingIntent.readRow_current hof hcounts (hI.kept n hn)⟩
    · exact hI.scans s sc' h
  · intro s s' sc₁ sc₂ id hs hs' hne h₁ h₂
    rcases lookup_put hs with ⟨rfl, rfl⟩ | ⟨hs, h⟩
    · rcases lookup_put hs' with ⟨rfl, -⟩ | ⟨hs', h'⟩
      · exact hne rfl
      · exact hother s' sc₂ id h' h₂ h₁
    · rcases lookup_put hs' with ⟨rfl, rfl⟩ | ⟨hs', h'⟩
      · exact hother s sc₁ id h h₁ h₂
      · exact hI.apart s s' sc₁ sc₂ id h h' hne h₁ h₂

/-- A new intent has not fired. -/
theorem inv_add {i : NewStandingIntent} {createdAt : Int} {db : IntentDb} (hI : Inv w)
    (hnew : i.id ∉ w.added.map (·.id)) (hadd : w.db.intentAdd i createdAt = some db) :
    Inv { w with db, added := w.added ++ [i] } := by
  have hrows : db.intents = w.db.intents ++ [IntentDb.newRow i createdAt] := by
    unfold IntentDb.intentAdd at hadd
    split at hadd
    · simp at hadd
    · rw [← Option.some.inj hadd]
  have hsilent : Ledger.under i.id w.fired = [] :=
    Ledger.under_eq_nil fun p hp hid => hnew (hid ▸ hI.known p hp)
  refine ⟨?_, ?_, ?_, ?_, ?_, ?_, ?_, hI.apart⟩
  · show ((w.added ++ [i]).map (·.id)).Nodup
    rw [List.map_append]
    exact List.Nodup.append hI.ids (List.nodup_singleton _) (by simpa using hnew)
  · intro p hp
    show p.1 ∈ (w.added ++ [i]).map (·.id)
    rw [List.map_append]
    exact List.mem_append_left _ (hI.known p hp)
  · intro m hm
    rcases List.mem_append.1 hm with hm | hm
    · exact hI.kept m hm
    · obtain rfl := List.mem_singleton.1 hm
      show m.KeepsTo (Ledger.under m.id w.fired)
      rw [hsilent]
      exact NewStandingIntent.keepsTo_nil
  · intro r hr
    rw [hrows] at hr
    rcases List.mem_append.1 hr with hr | hr
    · obtain ⟨n, hn, hof⟩ := hI.rows r hr
      exact ⟨n, List.mem_append_left _ hn, hof⟩
    · obtain rfl := List.mem_singleton.1 hr
      exact ⟨i, List.mem_append_right _ (List.mem_singleton.2 rfl), rfl, rfl, rfl, rfl⟩
  · intro r hr hnone
    rw [hrows] at hr
    rcases List.mem_append.1 hr with hr | hr
    · exact hI.counts r hr hnone
    · obtain rfl := List.mem_singleton.1 hr
      show IntentRow.Counts _ (Ledger.under i.id w.fired)
      rw [hsilent]
      exact ⟨rfl, rfl⟩
  · intro s sc id hs hm
    obtain ⟨before, hunder, hcounts⟩ := hI.marking s sc id hs hm
    refine ⟨before, hunder, fun r hr hid => ?_⟩
    rw [hrows] at hr
    rcases List.mem_append.1 hr with hr | hr
    · exact hcounts r hr hid
    · obtain rfl := List.mem_singleton.1 hr
      have hid' : i.id = id := hid
      rw [hid'] at hsilent
      rw [hsilent] at hunder
      simp at hunder
  · intro s sc hs
    have hok := hI.scans s sc hs
    refine ⟨hok.nodup, hok.passed, fun id hid row hready => ?_⟩
    obtain ⟨n, hn, hcur⟩ := hok.current id hid row hready
    exact ⟨n, List.mem_append_left _ hn, hcur⟩

theorem inv_rm (hI : Inv w) (id : String) : Inv { w with db := (w.db.intentRm id).2 } where
  ids := hI.ids
  known := hI.known
  kept := hI.kept
  rows := fun r hr => hI.rows r (List.mem_of_mem_filter hr)
  counts := fun r hr => hI.counts r (List.mem_of_mem_filter hr)
  marking := fun s sc id' hs hm =>
    let ⟨before, hunder, hcounts⟩ := hI.marking s sc id' hs hm
    ⟨before, hunder, fun r hr => hcounts r (List.mem_of_mem_filter hr)⟩
  scans := hI.scans
  apart := hI.apart

theorem inv_step {a : Act} {w' : IntentWorld} (hI : Inv w) (hapart : ¬ Overlaps cfg w a)
    (h : step cfg w a = some w') : Inv w' := by
  cases a with
  | add p now id createdAt =>
    simp only [step] at h
    split at h
    · simp at h
    · next hnew =>
      cases hadd : handleIntentAdd cfg.defaults p now id with
      | error e =>
        simp only [hadd] at h
        exact Option.some.inj h ▸ hI
      | ok i =>
        simp only [hadd, Option.map_eq_some_iff] at h
        obtain ⟨db, hdb, rfl⟩ := h
        rw [← (handleIntentAdd_ok hadd).1] at hnew
        exact inv_add hI hnew hdb
  | rm id =>
    obtain rfl := Option.some.inj h
    exact inv_rm hI id
  | begin session userMsg now =>
    cases hidle : w.scans.lookup session with
    | some sc => simp [step, hidle] at h
    | none =>
      simp only [step, hidle] at h
      obtain rfl := Option.some.inj h
      exact inv_proceed (inv_start hI hidle hapart) rfl _
  | mark session =>
    cases hsc : w.scans.lookup session with
    | none => simp [step, hsc] at h
    | some sc =>
      cases hmark : sc.marking with
      | none => simp [step, hsc, hmark] at h
      | some id =>
        simp only [step, hsc, hmark] at h
        obtain rfl := Option.some.inj h
        exact inv_proceed (inv_marked hI hsc hmark) rfl _

end Steps

/-- Whatever the sessions, the order of their steps and the readings of the clock: if no session begins to scan
while another has the same intent to fire, every intent keeps to its budget, its cooldown and its expiry. -/
theorem kept_of_apart (cfg : IntentCfg) (as : List Act)
    (hapart : Steps.AllSteps (step cfg) (fun w a _ => ¬ Overlaps cfg w a) init as) :
    Steps.AllStates (step cfg) Kept init as := by
  have hstep : ∀ w a w', Inv w → ¬ Overlaps cfg w a → step cfg w a = some w' → Inv w' :=
    fun _ _ _ hI hR h => inv_step hI hR h
  exact Steps.allStates_of_guarded hstep (fun _ hI => hI.kept) inv_init hapart

instance decidableOverlaps (cfg : IntentCfg) (w : IntentWorld) : ∀ a, Decidable (Overlaps cfg w a)
  | .begin _ userMsg now => inferInstanceAs (Decidable (∃ e ∈ w.scans.entries, ∃ id ∈ e.2.owed,
      id ∈ (IntentScan.start cfg.toLowercase (w.db.intentList cfg.order) userMsg now).owed))
  | .add _ _ _ _ => inferInstanceAs (Decidable False)
  | .rm _ => inferInstanceAs (Decidable False)
  | .mark _ => inferInstanceAs (Decidable False)

def testIntents : IntentCfg := { defaults := .default, toLowercase := id, order := .table IntentRow }

/-- One reminder, and no more. -/
def plug : IntentAddParams :=
  { text := "plug", keywords := ["trip"], cooldownSecs := none, budget := some 1, expiryDays := none }

theorem kept_of_apart_plug :
    Steps.AllStates (step testIntents) Kept init
      [.add plug 0 "i" 0, .begin "a" "a trip" 10, .mark "a", .begin "b" "my trip" 20] :=
  kept_of_apart testIntents _ (by decide)

/-- Two sessions hear of the trip at the same time, and both pass on the one reminder there is. -/
theorem kept_fails_on_overlap :
    ¬ ∀ (cfg : IntentCfg) (as : List Act), Steps.AllStates (step cfg) Kept init as := by
  intro h
  obtain ⟨w, hrun, hw⟩ : ∃ w, Steps.exec (step testIntents) init
      [.add plug 0 "i" 0, .begin "a" "a trip" 10, .begin "b" "my trip" 10] = some w ∧
      (w.added.map fun n => (n.id, n.budget.toNat), w.fired) = ([("i", 1)], [("i", 10), ("i", 10)]) := by
    refine Option.map_eq_some_iff.1
      (?_ : Option.map (fun w : IntentWorld => (w.added.map fun n => (n.id, n.budget.toNat), w.fired)) _ = some _)
    decide
  have hkept := Steps.allStates_iff.1 (h testIntents _) _ w (List.prefix_refl _) hrun
  obtain ⟨hadded, hfired⟩ := Prod.mk.inj hw
  obtain ⟨n, hn, hnid⟩ := List.mem_map.1 (hadded ▸ List.mem_singleton_self (("i", 1) : String × Nat))
  obtain ⟨hid, hbudget⟩ := Prod.mk.inj hnid
  have hle := (hkept n hn).budget
  rw [hid, hbudget, hfired] at hle
  revert hle
  decide

end IntentWorld

end OhMyClaw
