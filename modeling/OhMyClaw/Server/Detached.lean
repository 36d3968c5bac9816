import OhMyClaw.Lib.Upto
import OhMyClaw.Server.RunLog
import OhMyClaw.Server.RunSpoken

/-!
# A detached run, its log and the store

One run of a client that may go away and come back: from the moment its turn is accepted, with
its event log, its writes to the store, the other writes to the same session, and the clients
that read the history and resume the run.  The driver is `Run.step`; what it pushes goes into
the log, what it wants stored is asked of the store, and the log is marked between the store's
answer and the driver's next leg.

The store numbers the records of a session upwards.  A write is cut in two, the store's commit
and the answer that reaches the run, so that anything may happen in between; the run timeout
may drop the driver while its write is under way, which the store may then still commit.
-/

namespace OhMyClaw

/-- What has become of a write the run asked for. -/
inductive Fate where
  | pending
  | refused
  | stored (seq : Int)
deriving DecidableEq, Repr

def Fate.answer : Fate → Option Bool
  | .pending => none
  | .refused => some false
  | .stored _ => some true

structure Write where
  entry : NewEntry
  fate : Fate
deriving DecidableEq, Repr

inductive RunPhase where
  /-- The turn waits for the lane. -/
  | waiting
  | driving (d : Run.Drive)
  /-- A hard abort took the turn out of the queue. -/
  | dropped
deriving DecidableEq, Repr

structure Detached where
  phase : RunPhase
  /-- The actor still has the log of the run. -/
  logged : Bool
  log : RunLog
  writes : List Write
  /-- The largest seq in the session. -/
  lastSeq : Int
  /-- History: what `lastSeq` was each time a client read the session's history. -/
  reads : List Int
  /-- History: the seqs the subscribers of the log named. -/
  since : List Int
deriving DecidableEq, Repr

namespace Detached

open Run (Drive)

inductive Act where
  /-- The turn gets the lane. -/
  | begin
  | run (a : Run.Act)
  /-- The store writes the run's last record. -/
  | commit (seq : Int)
  /-- The run's last write fails, or never gets to the store. -/
  | refuse
  /-- The store writes somebody else's record. -/
  | foreign (seq : Int)
  | read
  | resume (sinceSeq : Int)
  /-- The connection of a subscriber is gone. -/
  | leave (i : Nat)
  | hardAbort
  /-- The actor handles the end of the run. -/
  | finished
deriving DecidableEq, Repr

/-- A turn has been accepted, in a session whose largest seq is `lastSeq`. -/
def accepted (lastSeq : Int) : Detached :=
  { phase := .waiting, logged := true, log := .new, writes := [], lastSeq, reads := [], since := [] }

/-- What the store has answered to the last write. -/
def answer (x : Detached) : Option Bool := x.writes.getLast?.bind fun w => w.fate.answer

/-- The log once the driver knows the store's answer. -/
def marked (x : Detached) : RunLog :=
  match x.writes.getLast? with
  | some { fate := .stored seq, .. } => x.log.markPersisted seq
  | _ => x.log

/-- What a leg pushes. -/
def fresh (d d' : Drive) : List Event := d'.events.drop d.events.length

def pushAll (log : RunLog) (es : List Event) : RunLog := es.foldl RunLog.push log

/-- The driver goes on from `d` to `d'`; its pushes go into `log`. -/
def drive (x : Detached) (log : RunLog) (d d' : Drive) : Detached :=
  { x with
    phase := .driving d'
    log := pushAll log (fresh d d')
    writes := x.writes ++ (Run.asks d d').toList.map fun entry => { entry, fate := .pending } }

/-- Settle the last write, if that is still open. -/
def settle (x : Detached) (fate : Fate) : Option Detached :=
  match x.writes.getLast? with
  | some { entry, fate := .pending } =>
    some { x with writes := x.writes.dropLast ++ [{ entry, fate }] }
  | _ => none

def step (ctx : RunCtx) (x : Detached) (a : Act) : Option Detached :=
  match a, x.phase with
  | .begin, .waiting =>
    let d := Run.start ctx
    some { x with phase := .driving d, log := pushAll x.log d.events }
  | .run (.stored ok), .driving d =>
    if x.answer = some ok then (Run.step ctx d (.stored ok)).map fun d' => x.drive x.marked d d'
    else none
  | .run a, .driving d => (Run.step ctx d a).map fun d' => x.drive x.log d d'
  | .commit seq, _ =>
    if x.lastSeq < seq then (x.settle (.stored seq)).map fun x => { x with lastSeq := seq } else none
  | .refuse, _ => x.settle .refused
  | .foreign seq, _ => if x.lastSeq < seq then some { x with lastSeq := seq } else none
  | .read, _ => some { x with reads := x.reads ++ [x.lastSeq] }
  | .resume sinceSeq, _ =>
    if x.logged then
      some { x with log := x.log.subscribeFrom sinceSeq false, since := x.since ++ [sinceSeq] }
    else some x
  | .leave i, _ => some { x with log := x.log.unsubscribe i }
  | .hardAbort, .waiting => some { x with phase := .dropped }
  | .hardAbort, _ => some x
  | .finished, .driving d =>
    match d.pc with
    | .done _ => some { x with logged := false }
    | _ => none
  | _, _ => none

/-- What is forwarded to a subscriber's connection: everything up to the first terminal. -/
def forwarded (s : LogSub) : List Event := s.received.upTo Event.isTerminal

/-- A run for a client that may come back. -/
def webCtx : RunCtx :=
  { sessionId := "main", runId := "r1", userText := "hi", history := [], compactCfg := .default
    tools := false, runTimeout := false, sink := .detached }

/-- A run with a tool. -/
def roundCtx : RunCtx := { webCtx with tools := true }

/-! ## What a step can be -/

inductive Change (ctx : RunCtx) (x : Detached) : Act → Detached → Prop
  | begin (hphase : x.phase = .waiting) :
      Change ctx x .begin
        { x with phase := .driving (Run.start ctx), log := pushAll x.log (Run.start ctx).events }
  | stored {d d' ok} (hphase : x.phase = .driving d) (hanswer : x.answer = some ok)
      (hstep : Run.step ctx d (.stored ok) = some d') :
      Change ctx x (.run (.stored ok)) (x.drive x.marked d d')
  | run {d d' a} (hphase : x.phase = .driving d) (ha : ∀ ok, a ≠ .stored ok)
      (hstep : Run.step ctx d a = some d') : Change ctx x (.run a) (x.drive x.log d d')
  | commit {seq ws e} (hseq : x.lastSeq < seq) (hws : x.writes = ws ++ [{ entry := e, fate := .pending }]) :
      Change ctx x (.commit seq)
        { x with writes := ws ++ [{ entry := e, fate := .stored seq }], lastSeq := seq }
  | refuse {ws e} (hws : x.writes = ws ++ [{ entry := e, fate := .pending }]) :
      Change ctx x .refuse { x with writes := ws ++ [{ entry := e, fate := .refused }] }
  | foreign {seq} (hseq : x.lastSeq < seq) : Change ctx x (.foreign seq) { x with lastSeq := seq }
  | read : Change ctx x .read { x with reads := x.reads ++ [x.lastSeq] }
  | resume {s} (hlogged : x.logged = true) :
      Change ctx x (.resume s)
        { x with log := x.log.subscribeFrom s false, since := x.since ++ [s] }
  | unknown {s} (hlogged : x.logged = false) : Change ctx x (.resume s) x
  | leave {i} : Change ctx x (.leave i) { x with log := x.log.unsubscribe i }
  | drop (hphase : x.phase = .waiting) : Change ctx x .hardAbort { x with phase := .dropped }
  | noDrop (hphase : x.phase ≠ .waiting) : Change ctx x .hardAbort x
  | finished {d o} (hphase : x.phase = .driving d) (hpc : d.pc = .done o) :
      Change ctx x .finished { x with logged := false }

theorem settle_eq_some {x y : Detached} {fate : Fate} (h : x.settle fate = some y) :
    ∃ ws e, x.writes = ws ++ [{ entry := e, fate := .pending }] ∧
      y = { x with writes := ws ++ [{ entry := e, fate }] } := by
  unfold settle at h
  split at h
  · next e hlast =>
    obtain rfl := Option.some.inj h
    obtain ⟨hne, hget⟩ := List.getLast?_eq_some_iff.1 hlast
    exact ⟨hne, e, hget, by simp [hget]⟩
  · simp at h

theorem change_of_step {ctx : RunCtx} {x y : Detached} {a : Act} (h : step ctx x a = some y) :
    Change ctx x a y := by
  unfold step at h
  split at h
  case h_1 hphase =>
    obtain rfl := Option.some.inj h
    exact .begin hphase
  case h_2 ok d hphase =>
    split at h
    · next hanswer =>
      obtain ⟨d', hstep, rfl⟩ := Option.map_eq_some_iff.1 h
      exact .stored hphase hanswer hstep
    · simp at h
  case h_3 a d ha hphase =>
    obtain ⟨d', hstep, rfl⟩ := Option.map_eq_some_iff.1 h
    exact .run hphase (fun ok hok => ha ok hok) hstep
  case h_4 seq _ =>
    split at h
    · next hseq =>
      obtain ⟨z, hz, rfl⟩ := Option.map_eq_some_iff.1 h
      obtain ⟨ws, e, hws, rfl⟩ := settle_eq_some hz
      exact .commit hseq hws
    · simp at h
  case h_5 =>
    obtain ⟨ws, e, hws, rfl⟩ := settle_eq_some h
    exact .refuse hws
  case h_6 seq _ =>
    split at h
    · next hseq =>
      obtain rfl := Option.some.inj h
      exact .foreign hseq
    · simp at h
  case h_7 =>
    obtain rfl := Option.some.inj h
    exact .read
  case h_8 s _ =>
    split at h
    · next hlogged =>
      obtain rfl := Option.some.inj h
      exact .resume hlogged
    · next hlogged =>
      obtain rfl := Option.some.inj h
      exact .unknown (by simpa using hlogged)
  case h_9 i _ =>
    obtain rfl := Option.some.inj h
    exact .leave
  case h_10 hphase =>
    obtain rfl := Option.some.inj h
    exact .drop hphase
  case h_11 hphase =>
    obtain rfl := Option.some.inj h
    exact .noDrop hphase
  case h_12 d hphase =>
    split at h
    · next o hpc =>
      obtain rfl := Option.some.inj h
      exact .finished hphase hpc
    · simp at h
  case h_13 => simp at h

/-! ## What every step keeps -/

/-- The events the run has pushed. -/
def events (x : Detached) : List Event :=
  match x.phase with
  | .driving d => d.events
  | _ => []

/-- The text the run has asked to be stored. -/
def told (ws : List Write) : String := String.join (ws.map fun w => w.entry.spoken)

/-- The log holds the run's events, and the driver says what is not yet told. -/
structure Kept (x : Detached) : Prop where
  ring : x.log.ring.Holds x.events
  voiced : ∀ d, x.phase = .driving d → Run.Voiced (told x.writes) d ∨ Run.Silent d
  idle : (∀ d, x.phase ≠ .driving d) → x.writes = [] ∧ x.log.marks = []

theorem told_append (as bs : List Write) : told (as ++ bs) = told as ++ told bs := by
  simp [told]

theorem told_asks (d d' : Drive) :
    told ((Run.asks d d').toList.map fun entry => { entry, fate := .pending }) =
      Run.askedText (Run.asks d d') := by
  cases Run.asks d d' <;> simp [told, Run.askedText]

theorem pushAll_ring {log : RunLog} {xs : List Event} (h : log.ring.Holds xs) (es : List Event) :
    (pushAll log es).ring.Holds (xs ++ es) := by
  induction es generalizing log xs with
  | nil => simpa [pushAll] using h
  | cons e es ih =>
    have hpush : (log.push e).ring.Holds (xs ++ [e]) := h.push e
    simpa [pushAll] using ih hpush

@[simp] theorem pushAll_marks (log : RunLog) (es : List Event) : (pushAll log es).marks = log.marks := by
  induction es generalizing log with
  | nil => rfl
  | cons e es ih => exact ih (log.push e)

/-- A push reaches the live subscribers. -/
def hear (es : List Event) (s : LogSub) : LogSub :=
  if s.live then { s with received := s.received ++ es } else s

theorem pushAll_subs (log : RunLog) (es : List Event) :
    (pushAll log es).subs = log.subs.map (hear es) := by
  induction es generalizing log with
  | nil =>
    have hid : hear [] = id := by
      funext s
      simp [hear]
    simp [pushAll, hid]
  | cons e es ih =>
    show (pushAll (log.push e) es).subs = _
    rw [ih, RunLog.push, List.map_map]
    congr 1
    funext s
    simp only [Function.comp_apply, hear, LogSub.send]
    split <;> simp_all

theorem marked_ring (x : Detached) : x.marked.ring = x.log.ring := by
  unfold marked
  split <;> rfl

theorem marked_subs (x : Detached) : x.marked.subs = x.log.subs := by
  unfold marked
  split <;> rfl

theorem events_fresh {ctx : RunCtx} {d d' : Drive} {a : Run.Act} (h : Run.step ctx d a = some d') :
    d'.events = d.events ++ fresh d d' := by
  obtain ⟨new, hnew⟩ := (Run.step_mono h).sent
  have hevents : d'.events = d.events ++ new.map (·.1) := by
    simp [Drive.events, ← hnew]
  rw [fresh, hevents, List.drop_left]

theorem accepted_kept (lastSeq : Int) : Kept (accepted lastSeq) where
  ring := RingBuf.holds_empty
  voiced d hd := by simp [accepted] at hd
  idle _ := ⟨rfl, rfl⟩

/-- A write settled one way or the other has the same text. -/
theorem told_settled (ws : List Write) (e : NewEntry) (fate fate' : Fate) :
    told (ws ++ [{ entry := e, fate }]) = told (ws ++ [{ entry := e, fate := fate' }]) := by
  simp [told]

theorem settled_kept {x y : Detached} {ws : List Write} {e : NewEntry} {fate fate' : Fate}
    (h : Kept x) (hws : x.writes = ws ++ [{ entry := e, fate }])
    (hws' : y.writes = ws ++ [{ entry := e, fate := fate' }]) (hphase : y.phase = x.phase)
    (hlog : y.log = x.log) : Kept y := by
  constructor
  · have hevents : y.events = x.events := by simp only [events, hphase]
    rw [hlog, hevents]
    exact h.ring
  · intro d hd
    rw [hws', told_settled ws e fate' fate, ← hws]
    exact h.voiced d (hphase ▸ hd)
  · intro hno
    have hnil := (h.idle (hphase ▸ hno)).1
    simp [hws] at hnil

theorem drive_kept {ctx : RunCtx} (hsink : ctx.sink = .detached) {x : Detached} {d d' : Drive}
    {a : Run.Act} {log : RunLog} (h : Kept x) (hphase : x.phase = .driving d)
    (hring : log.ring = x.log.ring) (hstep : Run.step ctx d a = some d') : Kept (x.drive log d d') := by
  constructor
  · show (pushAll log (fresh d d')).ring.Holds d'.events
    rw [events_fresh hstep]
    refine pushAll_ring ?_ _
    have hx := h.ring
    simp only [events, hphase] at hx
    rw [hring]
    exact hx
  · intro t ht
    obtain rfl : d' = t := RunPhase.driving.inj ht
    show Run.Voiced (told (x.writes ++ _)) d' ∨ _
    rw [told_append, told_asks]
    rcases h.voiced d hphase with hvoiced | hsilent
    · by_cases hpanic : a = .panic
      · subst hpanic
        exact Or.inr (Run.step_panic hvoiced hstep).1
      · exact Or.inl (Run.step_voiced hsink hvoiced hpanic hstep)
    · exact Or.inr (Run.step_silent hsilent hstep).1
  · intro hno
    exact absurd rfl (hno d')

theorem step_kept {ctx : RunCtx} (hsink : ctx.sink = .detached) {x y : Detached} {a : Act}
    (h : Kept x) (hstep : step ctx x a = some y) : Kept y := by
  have hsame {y : Detached} (hring : y.log.ring = x.log.ring) (hmarks : y.log.marks = x.log.marks)
      (hphase : y.phase = x.phase) (hwrites : y.writes = x.writes) : Kept y := by
    constructor
    · have hevents : y.events = x.events := by simp only [events, hphase]
      rw [hring, hevents]
      exact h.ring
    · intro d hd
      rw [hwrites]
      exact h.voiced d (hphase ▸ hd)
    · intro hno
      rw [hwrites, hmarks]
      exact h.idle (hphase ▸ hno)
  cases change_of_step hstep with
  | begin hphase =>
    have hidle := h.idle (by simp [hphase])
    have hx := h.ring
    simp only [events, hphase] at hx
    refine ⟨pushAll_ring hx _, fun d hd => ?_, fun hno => absurd rfl (hno _)⟩
    obtain rfl := RunPhase.driving.inj hd
    rw [hidle.1]
    exact Or.inl (Run.start_voiced hsink)
  | stored hphase hanswer hrun => exact drive_kept hsink h hphase (marked_ring x) hrun
  | run hphase ha hrun => exact drive_kept hsink h hphase rfl hrun
  | commit hseq hws => exact settled_kept h hws rfl rfl rfl
  | refuse hws => exact settled_kept h hws rfl rfl rfl
  | foreign hseq => exact hsame rfl rfl rfl rfl
  | read => exact hsame rfl rfl rfl rfl
  | resume hlogged => exact hsame rfl rfl rfl rfl
  | unknown hlogged => exact h
  | leave => exact hsame rfl rfl rfl rfl
  | drop hphase =>
    have hidle := h.idle (by simp [hphase])
    have hx := h.ring
    simp only [events, hphase] at hx
    exact ⟨hx, fun d hd => by simp at hd, fun _ => hidle⟩
  | noDrop hphase => exact h
  | finished hphase hpc => exact hsame rfl rfl rfl rfl

end Detached

end OhMyClaw
