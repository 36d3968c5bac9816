import OhMyClaw.Server.RunSpoken
import OhMyClaw.Server.SessionLane

/-!
# One run after the other

A session with its actor, the runs it has begun, the queue of the store's writer and the
transcript.  A run begins when the actor hands the user message to the writer; the actor waits
until it is written before it spawns the driver, and handles no command in between.  The run is
over for the session once the actor has handled its `finished`, which the run's task sends when
the driver has returned.

Writes are tagged with the run they come from.  The writer takes them in the order in which they
were asked for; no write fails and nobody compacts.

    serial           what holds at every moment
    serial_fails     while a run begins, the actor's slot is empty and the queue names the run
-/

namespace OhMyClaw

/-- A write asked of the store, with the run it is of. -/
structure Request where
  runId : String
  entry : NewEntry
deriving DecidableEq, Repr

inductive TaskPhase where
  /-- `begin_run` waits for the user message to be written. -/
  | storing
  | driving (ctx : RunCtx) (d : Run.Drive)
deriving DecidableEq, Repr

/-- A run that has begun and whose end has not been handled. -/
structure RunTask where
  turn : QueuedTurn
  phase : TaskPhase
deriving DecidableEq, Repr

structure Served where
  actor : Actor
  tasks : List RunTask
  /-- What the store has been asked to write. -/
  inbox : List Request
  transcript : List Request
  /-- History: the turns accepted. -/
  accepted : List QueuedTurn
  /-- History: the turns begun. -/
  begun : List QueuedTurn

namespace Served

open Run (Drive)

/-- The actor is inside `begin_run`. -/
def beginning (x : Served) : Bool := x.tasks.any fun t => t.phase matches .storing

/-- The actor's variable `active`: it is set when `begin_run` returns. -/
def slot (x : Served) : Option String :=
  if x.beginning then none else x.actor.active.map (·.runId)

def userRequest (sessionId : String) (turn : QueuedTurn) : Request :=
  { runId := turn.runId, entry := .text sessionId .user turn.text (estimateTokens turn.text) }

/-- The turn a command makes the actor accept. -/
def acceptedBy (a : Actor) : Cmd → Option QueuedTurn
  | .submit runId text _ _ =>
    match (a.queue.submit { runId, text }).2 with
    | .rejected => none
    | _ => some { runId, text }
  | _ => none

/-- The turn that gets the lane through a command. -/
def begunBy (a : Actor) : Cmd → Option QueuedTurn
  | .submit runId text _ _ =>
    match (a.queue.submit { runId, text }).2 with
    | .started turn => some turn
    | _ => none
  | .finished runId _ _ =>
    if a.active.map (·.runId) = some runId then a.queue.completeActive.2 else none
  | _ => none

/-- The commands of the actor's loop, as against what a run's task does beside it. -/
def handled : Cmd → Bool
  | .runProgress _ => false
  | .runCancels => false
  | .runTerminal => false
  | _ => true

/-- The runs that go on after a command. -/
def remaining (tasks : List RunTask) : Cmd → List RunTask
  | .finished runId _ _ => tasks.filter fun t => t.turn.runId ≠ runId
  | _ => tasks

/-- Only a driver that has returned reports the end of its run; nobody compacts. -/
def sendable (x : Served) : Cmd → Bool
  | .finished runId o _ => x.tasks.any fun t => t.turn.runId = runId &&
      match t.phase with
      | .driving _ d => d.pc = .done o
      | .storing => false
  | .compact _ => false
  | _ => true

inductive Act where
  | cmd (c : Cmd)
  /-- The store writes the next record. -/
  | write
  /-- `begin_run` goes on and spawns the driver. -/
  | begun (ctx : RunCtx)
  | run (runId : String) (a : Run.Act)
  /-- The run timeout strikes before the driver's write has got into the writer's queue. -/
  | giveUp (runId : String)
deriving DecidableEq

/-- The write the driver waits for has been done. -/
def written (x : Served) (runId : String) : Bool := x.inbox.all fun q => q.runId ≠ runId

def driveOf (x : Served) (runId : String) : Option (RunCtx × Drive) :=
  (x.tasks.find? fun t => t.turn.runId = runId).bind fun t =>
    match t.phase with
    | .driving ctx d => some (ctx, d)
    | .storing => none

/-- No write fails, and the driver learns of its write once it has been done. -/
def answerable (x : Served) (runId : String) : Run.Act → Bool
  | .stored ok => ok && x.written runId
  | _ => true

def setPhase (tasks : List RunTask) (runId : String) (phase : TaskPhase) : List RunTask :=
  tasks.map fun t => if t.turn.runId = runId then { t with phase } else t

/-- What a leg of the driver makes of the session. -/
def drive (x : Served) (runId : String) (ctx : RunCtx) (d d' : Drive) : Served :=
  { x with
    tasks := setPhase x.tasks runId (.driving ctx d')
    inbox := x.inbox ++ (Run.asks d d').toList.map fun entry => { runId, entry } }

/-- What a command makes of the session, with the actor it leaves. -/
def after (x : Served) (sessionId : String) (actor : Actor) (c : Cmd) : Served :=
  { x with
    actor
    tasks := remaining x.tasks c ++
      (begunBy x.actor c).toList.map fun turn => { turn, phase := .storing }
    inbox := x.inbox ++ (begunBy x.actor c).toList.map (userRequest sessionId)
    accepted := x.accepted ++ (acceptedBy x.actor c).toList
    begun := x.begun ++ (begunBy x.actor c).toList }

def step (cfg : ActorCfg) (sessionId : String) (x : Served) : Act → Option Served
  | .cmd c =>
    if !(handled c && x.beginning) && sendable x c then
      (Actor.step cfg x.actor c).map fun actor => x.after sessionId actor c
    else none
  | .write =>
    match x.inbox with
    | q :: rest => some { x with inbox := rest, transcript := x.transcript ++ [q] }
    | [] => none
  | .begun ctx =>
    match x.tasks.find? fun t => t.phase matches .storing with
    | some t =>
      if x.written t.turn.runId && ctx.runId = t.turn.runId && ctx.userText = t.turn.text then
        some { x with tasks := setPhase x.tasks t.turn.runId (.driving ctx (Run.start ctx)) }
      else none
    | none => none
  | .run runId a =>
    match x.driveOf runId with
    | some (ctx, d) =>
      if x.answerable runId a then
        (Run.step ctx d a).map fun d' => x.drive runId ctx d d'
      else none
    | none => none
  | .giveUp runId =>
    match x.driveOf runId with
    | some (ctx, d) =>
      if x.inbox.getLast?.map (·.runId) = some runId && d.pc.asked.isSome then
        (Run.step ctx d .runTimeout).map fun d' =>
          { x.drive runId ctx d d' with inbox := x.inbox.dropLast }
      else none
    | none => none

/-- A session whose actor has just been spawned. -/
def new (cfg : ActorCfg) (now : Nat) : Served :=
  { actor := .new cfg now, tasks := [], inbox := [], transcript := [], accepted := [], begun := [] }

/-! ## Blocks -/

/-- The records of one run: its user message, and what it wrote. -/
structure Block where
  turn : QueuedTurn
  rest : List NewEntry

def Block.requests (sessionId : String) (b : Block) : List Request :=
  userRequest sessionId b.turn :: b.rest.map fun entry => { runId := b.turn.runId, entry }

/-- What holds at every moment. -/
structure Serial (sessionId : String) (x : Served) : Prop where
  one : x.tasks.length ≤ 1
  slot : x.beginning = false → x.slot = x.actor.queue.active
  /-- While a run begins, the queue names it and the slot is empty. -/
  starting : x.beginning = true → x.slot = none ∧
    x.actor.queue.active = x.begun.getLast?.map (·.runId)
  blocks : ∃ blocks : List Block, blocks.map (·.turn) <+: x.begun ∧
    x.transcript = blocks.flatMap (Block.requests sessionId)
  order : x.begun.Sublist x.accepted

/-! ## Commands -/

/-- What a command does to the lane: whom it lets in, whom it lets begin, and what is left. -/
inductive LaneCase (a : Actor) (c : Cmd) (b : Actor) : Prop
  | quiet (haccepted : acceptedBy a c = none) (hbegun : begunBy a c = none)
      (hactive : b.active.map (·.runId) = a.active.map (·.runId))
      (hpending : b.queue.pending.Sublist a.queue.pending)
  /-- A turn is submitted to a free lane. -/
  | starts (turn : QueuedTurn) (haccepted : acceptedBy a c = some turn)
      (hbegun : begunBy a c = some turn) (hfree : a.active.map (·.runId) = none)
      (hactive : b.active.map (·.runId) = some turn.runId)
      (hpending : a.queue.pending = []) (hpending' : b.queue.pending = [])
  /-- A turn is submitted to a busy lane. -/
  | queues (turn : QueuedTurn) (haccepted : acceptedBy a c = some turn)
      (hbegun : begunBy a c = none) (hactive : b.active.map (·.runId) = a.active.map (·.runId))
      (hpending : b.queue.pending = a.queue.pending ++ [turn])

theorem laneCase_submit {a : Actor} (hb : Actor.Bookkeeping a) (r text : String) (sink : RunSink)
    (now : Nat) : LaneCase a (.submit r text sink now) (a.onSubmit r text sink now) := by
  by_cases hfree : a.queue.active = none
  · have hsub : a.queue.submit { runId := r, text } =
        ({ a.queue with active := some r }, .started { runId := r, text }) := by
      simp only [RunQueue.submit, hfree, if_true]
    obtain ⟨hnone, hidle⟩ := hb.free hfree
    have hpending : a.queue.pending = [] := by
      simpa [Actor.waiting, RunQueue.pendingIds] using hidle
    refine .starts { runId := r, text } ?_ ?_ (by simp [hnone]) ?_ hpending ?_
    all_goals simp [acceptedBy, begunBy, Actor.onSubmit, Actor.park, Actor.beginRun, hsub, hpending]
  · by_cases hfull : a.queue.cap ≤ a.queue.pending.length
    · have hsub : a.queue.submit { runId := r, text } = (a.queue, .rejected) := by
        simp only [RunQueue.submit, hfree, hfull, if_false, if_true]
      refine .quiet ?_ ?_ ?_ ?_
      all_goals simp [acceptedBy, begunBy, Actor.onSubmit, Actor.park, hsub]
    · have hsub : a.queue.submit { runId := r, text } =
          ({ a.queue with pending := a.queue.pending ++ [{ runId := r, text }] }, .queued) := by
        simp only [RunQueue.submit, hfree, hfull, if_false]
      refine .queues { runId := r, text } ?_ ?_ ?_ ?_
      all_goals simp [acceptedBy, begunBy, Actor.onSubmit, Actor.park, hsub]

/-- Every command but the end of the active run. -/
theorem laneCase_of_step {cfg : ActorCfg} {a b : Actor} {c : Cmd} (hb : Actor.Bookkeeping a)
    (h : Actor.step cfg a c = some b) (hc : ∀ r o now, c ≠ .finished r o now) : LaneCase a c b := by
  cases Actor.change_of_step h with
  | same hmoves hsame =>
    have hnone : acceptedBy a c = none ∧ begunBy a c = none := by
      cases c with
      | submit r text sink now => simp [Actor.movesLane] at hmoves
      | finished r o now => exact absurd rfl (hc r o now)
      | _ => exact ⟨rfl, rfl⟩
    exact .quiet hnone.1 hnone.2 hsame.active (by rw [hsame.queue])
  | @submit r text sink now b _ _ _ _ =>
    obtain ⟨-, -, rfl⟩ := Actor.step_eq_some.1 h
    exact laneCase_submit hb r text sink now
  | @hardAbort r m hsame => exact .quiet rfl rfl hsame.active (List.nil_sublist _)
  | @finished r o now b _ _ => exact absurd rfl (hc r o now)

/-- The end of the active run: the first waiting turn begins. -/
theorem finished_active {a : Actor} {r : String} (hwas : a.active.map (·.runId) = some r)
    (o : RunOutcome) (now : Nat) :
    ((a.onFinished r now).active.map (·.runId)) = (begunBy a (.finished r o now)).map (·.runId) ∧
      a.queue.pending =
        (begunBy a (.finished r o now)).toList ++ (a.onFinished r now).queue.pending := by
  have hbegun : begunBy a (.finished r o now) = a.queue.completeActive.2 := by
    simp [begunBy, hwas]
  rw [hbegun]
  cases hp : a.queue.pending with
  | nil => simp [Actor.onFinished, hwas, RunQueue.completeActive, hp]
  | cons turn rest => simp [Actor.onFinished, Actor.beginRun, hwas, RunQueue.completeActive, hp]

/-! ## The invariant -/

/-- The records asked for so far are the blocks of the runs begun; while the last of these is
driving, no more records wait than it has written behind its user message. -/
structure Filled (sessionId : String) (x : Served) (blocks : List Block) : Prop where
  turns : blocks.map (·.turn) = x.begun
  records : x.transcript ++ x.inbox = blocks.flatMap (Block.requests sessionId)
  own : ∀ t ∈ x.tasks, ∀ ctx d, t.phase = .driving ctx d → ∀ b, blocks.getLast? = some b →
    x.inbox.length ≤ b.rest.length

structure Inv (sessionId : String) (x : Served) : Prop where
  books : Actor.Bookkeeping x.actor
  /-- The runs that go on are the active one. -/
  tasks : x.tasks.map (·.turn.runId) = (x.actor.active.map (·.runId)).toList
  last : ∀ t ∈ x.tasks, x.begun.getLast? = some t.turn
  order : (x.begun ++ x.actor.queue.pending).Sublist x.accepted
  filled : ∃ blocks, Filled sessionId x blocks

theorem new_inv (cfg : ActorCfg) (sessionId : String) (now : Nat) : Inv sessionId (new cfg now) where
  books := Actor.new_bookkeeping cfg now
  tasks := rfl
  last := by simp [new]
  order := by simp [new, Actor.new, RunQueue.new]
  filled := ⟨[], by simp [new], by simp [new], by simp⟩

theorem Inv.one {sessionId : String} {x : Served} (h : Inv sessionId x) : x.tasks.length ≤ 1 := by
  have hlen := congrArg List.length h.tasks
  rw [List.length_map] at hlen
  rw [hlen]
  cases x.actor.active <;> simp

/-- An initial part of blocks is made of blocks. -/
theorem blocks_of_prefix {sessionId : String} (xs : List Request) {blocks : List Block}
    (h : xs <+: blocks.flatMap (Block.requests sessionId)) :
    ∃ blocks' : List Block, blocks'.map (·.turn) <+: blocks.map (·.turn) ∧
      xs = blocks'.flatMap (Block.requests sessionId) := by
  induction blocks generalizing xs with
  | nil =>
    obtain rfl : xs = [] := by simpa using h
    exact ⟨[], List.prefix_rfl, rfl⟩
  | cons b bs ih =>
    obtain ⟨ys, hys⟩ := h
    rw [List.flatMap_cons] at hys
    rcases List.append_eq_append_iff.1 hys with ⟨zs, hcut, -⟩ | ⟨zs, rfl, hzs⟩
    · -- The part ends inside the first block.
      cases xs with
      | nil => exact ⟨[], List.nil_prefix, rfl⟩
      | cons q qs =>
        obtain ⟨rfl, hrest⟩ := List.cons.inj hcut
        have hqs := List.prefix_iff_eq_take.1 ⟨zs, hrest.symm⟩
        rw [← List.map_take] at hqs
        refine ⟨[{ b with rest := b.rest.take qs.length }], by simp, ?_⟩
        simpa [Block.requests] using hqs
    · obtain ⟨blocks', hturns, rfl⟩ := ih _ ⟨ys, hzs.symm⟩
      exact ⟨b :: blocks', by simpa using hturns, by simp⟩

theorem Inv.isSerial {sessionId : String} {x : Served} (h : Inv sessionId x) : Serial sessionId x where
  one := h.one
  slot hno := by
    rw [slot, hno]
    exact h.books.active.symm
  starting hyes := by
    refine ⟨by simp [slot, hyes], ?_⟩
    obtain ⟨t, ht, -⟩ := List.any_eq_true.1 hyes
    have hlast := h.last t ht
    have hids := h.tasks
    cases hactive : x.actor.active.map (·.runId) with
    | none =>
      rw [hactive] at hids
      simp only [Option.toList_none, List.map_eq_nil_iff] at hids
      simp [hids] at ht
    | some r =>
      rw [hactive] at hids
      have hr : t.turn.runId = r := by
        have hmem : t.turn.runId ∈ x.tasks.map (·.turn.runId) := List.mem_map_of_mem ht
        simpa [hids] using hmem
      rw [h.books.active, hactive, hlast, Option.map_some, hr]
  blocks := by
    obtain ⟨blocks, hfilled⟩ := h.filled
    obtain ⟨blocks', hturns, htranscript⟩ :=
      blocks_of_prefix x.transcript ⟨x.inbox, hfilled.records⟩
    exact ⟨blocks', hfilled.turns ▸ hturns, htranscript⟩
  order := (List.sublist_append_left _ _).trans h.order

/-! ## The steps -/

theorem driveOf_eq_some {x : Served} {r : String} {ctx : RunCtx} {d : Drive}
    (h : x.driveOf r = some (ctx, d)) : ∃ t ∈ x.tasks, t.turn.runId = r ∧ t.phase = .driving ctx d := by
  unfold driveOf at h
  obtain ⟨t, hfind, ht⟩ := Option.bind_eq_some_iff.1 h
  refine ⟨t, List.mem_of_find?_eq_some hfind, by simpa using List.find?_some hfind, ?_⟩
  cases hphase : t.phase with
  | storing => simp [hphase] at ht
  | driving ctx' d' =>
    rw [hphase] at ht
    simp only [Option.some.injEq, Prod.mk.injEq] at ht
    rw [ht.1, ht.2]

/-- The one task there is. -/
theorem Inv.only {sessionId : String} {x : Served} (h : Inv sessionId x) {t : RunTask}
    (ht : t ∈ x.tasks) : x.tasks = [t] := by
  have hpos := List.length_pos_of_mem ht
  obtain ⟨t', hts⟩ := List.length_eq_one_iff.1 (Nat.le_antisymm h.one hpos)
  rw [hts, List.mem_singleton] at ht
  rw [hts, ht]

@[simp] theorem setPhase_ids (tasks : List RunTask) (r : String) (phase : TaskPhase) :
    (setPhase tasks r phase).map (·.turn) = tasks.map (·.turn) := by
  unfold setPhase
  rw [List.map_map]
  congr 1
  funext t
  simp only [Function.comp_apply]
  split <;> rfl

/-- A block that has all its records behind it gets another one. -/
theorem flatMap_concat (sessionId : String) (bs : List Block) (b : Block) (es : List NewEntry) :
    (bs ++ [{ b with rest := b.rest ++ es }]).flatMap (Block.requests sessionId) =
      (bs ++ [b]).flatMap (Block.requests sessionId) ++
        es.map fun entry => { runId := b.turn.runId, entry } := by
  simp [Block.requests]

/-- The report comes from the one run there is, and it is the active one. -/
theorem Inv.report {sessionId : String} {x : Served} (h : Inv sessionId x) {r : String}
    {o : RunOutcome} {now : Nat} (hsend : x.sendable (.finished r o now) = true) :
    x.actor.active.map (·.runId) = some r ∧ remaining x.tasks (.finished r o now) = [] := by
  obtain ⟨t, ht, hreport⟩ := List.any_eq_true.1 hsend
  simp only [Bool.and_eq_true, decide_eq_true_eq] at hreport
  have hr : t.turn.runId = r := hreport.1
  have honly := h.only ht
  have hids := h.tasks
  rw [honly, List.map_singleton, hr] at hids
  refine ⟨?_, by simp [remaining, honly, hr]⟩
  cases hactive : x.actor.active.map (·.runId) with
  | none => simp [hactive] at hids
  | some r' =>
    rw [hactive] at hids
    simpa using hids.symm

/-- Nobody begins. -/
theorem Inv.keep {sessionId : String} {x y : Served} (h : Inv sessionId x)
    (hbooks : Actor.Bookkeeping y.actor)
    (hids : y.tasks.map (·.turn.runId) = (y.actor.active.map (·.runId)).toList)
    (hsub : ∀ t ∈ y.tasks, t ∈ x.tasks) (htranscript : y.transcript = x.transcript)
    (hinbox : y.inbox = x.inbox) (hbegun : y.begun = x.begun)
    (horder : (x.begun ++ y.actor.queue.pending).Sublist y.accepted) : Inv sessionId y where
  books := hbooks
  tasks := hids
  last t ht := hbegun ▸ h.last t (hsub t ht)
  order := hbegun ▸ horder
  filled := by
    obtain ⟨blocks, hfilled⟩ := h.filled
    refine ⟨blocks, hfilled.turns.trans hbegun.symm, ?_, ?_⟩
    · rw [htranscript, hinbox]
      exact hfilled.records
    · intro t ht
      rw [hinbox]
      exact hfilled.own t (hsub t ht)

/-- A turn begins in a lane that is free: it gets a block of its own. -/
theorem Inv.start {sessionId : String} {x y : Served} (h : Inv sessionId x) {turn : QueuedTurn}
    (hbooks : Actor.Bookkeeping y.actor) (htasks : y.tasks = [{ turn, phase := .storing }])
    (hactive : y.actor.active.map (·.runId) = some turn.runId)
    (htranscript : y.transcript = x.transcript)
    (hinbox : y.inbox = x.inbox ++ [userRequest sessionId turn]) (hbegun : y.begun = x.begun ++ [turn])
    (horder : (x.begun ++ [turn] ++ y.actor.queue.pending).Sublist y.accepted) : Inv sessionId y where
  books := hbooks
  tasks := by simp [htasks, hactive]
  last t ht := by
    rw [htasks, List.mem_singleton] at ht
    rw [hbegun, List.getLast?_concat, ht]
  order := hbegun ▸ horder
  filled := by
    obtain ⟨blocks, hfilled⟩ := h.filled
    refine ⟨blocks ++ [{ turn, rest := [] }], ?_, ?_, ?_⟩
    · rw [hbegun, ← hfilled.turns, List.map_append, List.map_singleton]
    · rw [htranscript, hinbox, ← List.append_assoc, hfilled.records]
      simp [Block.requests]
    · intro t ht ctx d hphase
      rw [htasks, List.mem_singleton] at ht
      simp [ht] at hphase

theorem finished_inv {cfg : ActorCfg} {sessionId : String} {x : Served} {actor : Actor} {r : String}
    {o : RunOutcome} {now : Nat} (h : Inv sessionId x)
    (hsend : x.sendable (.finished r o now) = true)
    (hstep : Actor.step cfg x.actor (.finished r o now) = some actor) :
    Inv sessionId (x.after sessionId actor (.finished r o now)) := by
  have hbooks := Actor.bookkeeping_step h.books hstep
  obtain ⟨hwas, hremaining⟩ := h.report hsend
  obtain ⟨hactive, hpending⟩ := finished_active hwas o now
  have hactor : actor = x.actor.onFinished r now := (Actor.step_eq_some.1 hstep).2.2
  rw [← hactor] at hactive hpending
  have horder := h.order
  rw [hpending, ← List.append_assoc] at horder
  cases hbegun : begunBy x.actor (.finished r o now) with
  | none =>
    rw [hbegun] at hactive horder
    refine h.keep hbooks ?_ ?_ rfl ?_ ?_ ?_
    · simp [after, hremaining, hbegun, hactive]
    · simp [after, hremaining, hbegun]
    · simp [after, hbegun]
    · simp [after, hbegun]
    · simpa [after, acceptedBy] using horder
  | some turn =>
    rw [hbegun] at hactive horder
    refine h.start hbooks ?_ hactive rfl ?_ ?_ ?_
    · simp [after, hremaining, hbegun]
    · simp [after, hbegun]
    · simp [after, hbegun]
    · simpa [after, acceptedBy] using horder

theorem cmd_inv {cfg : ActorCfg} {sessionId : String} {x : Served} {c : Cmd} {actor : Actor}
    (h : Inv sessionId x) (hsend : x.sendable c = true)
    (hstep : Actor.step cfg x.actor c = some actor) : Inv sessionId (x.after sessionId actor c) := by
  by_cases hfin : ∃ r o now, c = .finished r o now
  · obtain ⟨r, o, now, rfl⟩ := hfin
    exact finished_inv h hsend hstep
  · have hc : ∀ r o now, c ≠ .finished r o now := fun r o now hc => hfin ⟨r, o, now, hc⟩
    have hbooks := Actor.bookkeeping_step h.books hstep
    have hremaining : remaining x.tasks c = x.tasks := by
      cases c with
      | finished r o now => exact absurd rfl (hc r o now)
      | _ => rfl
    cases laneCase_of_step h.books hstep hc with
    | quiet haccepted hbegun hactive hpending =>
      refine h.keep hbooks ?_ ?_ rfl ?_ ?_ ?_
      · simpa [after, hremaining, hbegun, hactive] using h.tasks
      · simp [after, hremaining, hbegun]
      · simp [after, hbegun]
      · simp [after, hbegun]
      · simpa [after, haccepted] using (List.Sublist.append_left hpending _).trans h.order
    | starts turn haccepted hbegun hfree hactive hpending hpending' =>
      have hnone : x.tasks = [] := by
        have hids := h.tasks
        rw [hfree] at hids
        simpa using hids
      have horder := h.order
      rw [hpending, List.append_nil] at horder
      have hempty : remaining x.tasks c = [] := hremaining.trans hnone
      refine h.start hbooks ?_ hactive rfl ?_ ?_ ?_
      · simp [after, hempty, hbegun]
      · simp [after, hbegun]
      · simp [after, hbegun]
      · simpa [after, haccepted, hpending'] using horder
    | queues turn haccepted hbegun hactive hpending =>
      refine h.keep hbooks ?_ ?_ rfl ?_ ?_ ?_
      · simpa [after, hremaining, hbegun, hactive] using h.tasks
      · simp [after, hremaining, hbegun]
      · simp [after, hbegun]
      · simp [after, hbegun]
      · have horder := h.order.append (List.Sublist.refl [turn])
        simpa [after, haccepted, hpending] using horder

theorem write_inv {sessionId : String} {x : Served} {q : Request} {rest : List Request}
    (h : Inv sessionId x) (hinbox : x.inbox = q :: rest) :
    Inv sessionId { x with inbox := rest, transcript := x.transcript ++ [q] } := by
  obtain ⟨blocks, hfilled⟩ := h.filled
  refine ⟨h.books, h.tasks, h.last, h.order, blocks, hfilled.turns, ?_, ?_⟩
  · rw [← hfilled.records, hinbox, List.append_assoc, List.singleton_append]
  · intro t ht ctx d hphase b hb
    have hle := hfilled.own t ht ctx d hphase b hb
    rw [hinbox, List.length_cons] at hle
    show rest.length ≤ _
    omega

/-- Only the phases of the runs change. -/
theorem Inv.phase {sessionId : String} {x y : Served} (h : Inv sessionId x) (hactor : y.actor = x.actor)
    (htasks : y.tasks.map (·.turn) = x.tasks.map (·.turn)) (haccepted : y.accepted = x.accepted)
    (hbegun : y.begun = x.begun) (hfilled : ∃ blocks, Filled sessionId y blocks) : Inv sessionId y where
  books := hactor ▸ h.books
  tasks := by
    have hids := congrArg (List.map QueuedTurn.runId) htasks
    rw [List.map_map, List.map_map] at hids
    rw [hactor, ← h.tasks]
    exact hids
  last t ht := by
    have hmem : t.turn ∈ x.tasks.map (·.turn) := htasks ▸ List.mem_map_of_mem ht
    obtain ⟨t', ht', heq⟩ := List.mem_map.1 hmem
    rw [hbegun, ← heq]
    exact h.last t' ht'
  order := by
    rw [hactor, hbegun, haccepted]
    exact h.order
  filled := hfilled

/-- The last block is that of the one run that goes on. -/
theorem Filled.last {sessionId : String} {x : Served} {blocks : List Block} (h : Filled sessionId x blocks)
    {t : RunTask} (hlast : x.begun.getLast? = some t.turn) :
    ∃ front b, blocks = front ++ [b] ∧ b.turn = t.turn := by
  rw [← h.turns, List.getLast?_map] at hlast
  obtain ⟨b, hb, hturn⟩ := Option.map_eq_some_iff.1 hlast
  obtain ⟨front, hfront⟩ := List.getLast?_eq_some_iff.1 hb
  exact ⟨front, b, hfront, hturn⟩

theorem begun_inv {sessionId : String} {x : Served} {ctx : RunCtx} {t : RunTask}
    (h : Inv sessionId x) (ht : t ∈ x.tasks) (hwritten : x.written t.turn.runId = true) :
    Inv sessionId { x with tasks := setPhase x.tasks t.turn.runId (.driving ctx (Run.start ctx)) } := by
  obtain ⟨blocks, hfilled⟩ := h.filled
  obtain ⟨front, b, rfl, hturn⟩ := hfilled.last (h.last t ht)
  refine h.phase rfl (setPhase_ids _ _ _) rfl rfl ⟨front ++ [b], hfilled.turns, hfilled.records, ?_⟩
  intro _ _ _ _ _ b' _
  -- What is left in the inbox would belong to this run.
  have hnil : x.inbox = [] := by
    by_contra hne
    obtain ⟨before, q, hq⟩ := List.eq_nil_or_concat x.inbox |>.resolve_left hne
    have hrecords := hfilled.records
    rw [hq, List.concat_eq_append, ← List.append_assoc] at hrecords
    have hlast := congrArg List.getLast? hrecords
    rw [List.getLast?_concat, List.flatMap_append] at hlast
    have hmem : q ∈ Block.requests sessionId b := by
      have hb : Block.requests sessionId b ≠ [] := by simp [Block.requests]
      rw [List.flatMap_singleton, List.getLast?_append_of_ne_nil _ hb] at hlast
      exact List.mem_of_getLast? hlast.symm
    have hid : q.runId = t.turn.runId := by
      rw [← hturn]
      simp only [Block.requests, List.mem_cons, List.mem_map] at hmem
      rcases hmem with rfl | ⟨e, -, rfl⟩ <;> rfl
    have hother := List.all_eq_true.1 hwritten q (by simp [hq])
    simp [hid] at hother
  show x.inbox.length ≤ _
  simp [hnil]

theorem drive_inv {sessionId : String} {x : Served} {r : String} {ctx : RunCtx} {d d' : Drive}
    (h : Inv sessionId x) (hdrive : x.driveOf r = some (ctx, d)) :
    Inv sessionId (x.drive r ctx d d') := by
  obtain ⟨t, ht, hr, hphase⟩ := driveOf_eq_some hdrive
  obtain ⟨blocks, hfilled⟩ := h.filled
  obtain ⟨front, b, rfl, hturn⟩ := hfilled.last (h.last t ht)
  refine h.phase rfl (setPhase_ids _ _ _) rfl rfl
    ⟨front ++ [{ b with rest := b.rest ++ (Run.asks d d').toList }], ?_, ?_, ?_⟩
  · show _ = x.begun
    rw [← hfilled.turns]
    simp
  · rw [flatMap_concat, ← hfilled.records, hturn, hr]
    simp [drive]
  · intro _ _ _ _ _ b' hb'
    rw [List.getLast?_concat, Option.some.injEq] at hb'
    subst hb'
    have hle := hfilled.own t ht ctx d hphase b (by simp)
    simp only [drive, List.length_append, List.length_map]
    omega

theorem giveUp_inv {sessionId : String} {x : Served} {r : String} {ctx : RunCtx} {d d' : Drive}
    (h : Inv sessionId x) (hdrive : x.driveOf r = some (ctx, d))
    (hlast : x.inbox.getLast?.map (·.runId) = some r) :
    Inv sessionId { x.drive r ctx d d' with inbox := x.inbox.dropLast } := by
  obtain ⟨t, ht, hr, hphase⟩ := driveOf_eq_some hdrive
  obtain ⟨blocks, hfilled⟩ := h.filled
  obtain ⟨front, b, rfl, hturn⟩ := hfilled.last (h.last t ht)
  have hle := hfilled.own t ht ctx d hphase b (by simp)
  have hne : x.inbox ≠ [] := by
    rintro hnil
    simp [hnil] at hlast
  have hpos := List.length_pos_of_ne_nil hne
  have hrest : b.rest ≠ [] := List.ne_nil_of_length_pos (by omega)
  refine h.phase rfl (setPhase_ids _ _ _) rfl rfl
    ⟨front ++ [{ b with rest := b.rest.dropLast }], ?_, ?_, ?_⟩
  · show _ = x.begun
    rw [← hfilled.turns]
    simp
  · have hrecords := congrArg List.dropLast hfilled.records
    rw [List.dropLast_append_of_ne_nil hne] at hrecords
    show x.transcript ++ x.inbox.dropLast = _
    rw [hrecords, List.flatMap_append, List.flatMap_append, List.flatMap_singleton,
      List.flatMap_singleton, List.dropLast_append_of_ne_nil (by simp [Block.requests])]
    simp [Block.requests, List.map_dropLast, List.dropLast_cons_of_ne_nil, hrest]
  · intro _ _ _ _ _ b' hb'
    rw [List.getLast?_concat, Option.some.injEq] at hb'
    subst hb'
    show x.inbox.dropLast.length ≤ b.rest.dropLast.length
    rw [List.length_dropLast, List.length_dropLast]
    omega

theorem step_inv {cfg : ActorCfg} {sessionId : String} {x y : Served} {a : Act} (h : Inv sessionId x)
    (hstep : step cfg sessionId x a = some y) : Inv sessionId y := by
  cases a with
  | cmd c =>
    simp only [step] at hstep
    split at hstep
    · next hc =>
      rw [Bool.and_eq_true] at hc
      obtain ⟨actor, hactor, rfl⟩ := Option.map_eq_some_iff.1 hstep
      exact cmd_inv h hc.2 hactor
    · simp at hstep
  | write =>
    simp only [step] at hstep
    split at hstep
    · next q rest hinbox =>
      obtain rfl := Option.some.inj hstep
      exact write_inv h hinbox
    · simp at hstep
  | begun ctx =>
    simp only [step] at hstep
    split at hstep
    · next t hfind =>
      split at hstep
      · next hgo =>
        obtain rfl := Option.some.inj hstep
        simp only [Bool.and_eq_true] at hgo
        exact begun_inv h (List.mem_of_find?_eq_some hfind) hgo.1.1
      · simp at hstep
    · simp at hstep
  | run r a =>
    simp only [step] at hstep
    split at hstep
    · next ctx d hdrive =>
      split at hstep
      · obtain ⟨d', -, rfl⟩ := Option.map_eq_some_iff.1 hstep
        exact drive_inv h hdrive
      · simp at hstep
    · simp at hstep
  | giveUp r =>
    simp only [step] at hstep
    split at hstep
    · next ctx d hdrive =>
      split at hstep
      · next hgive =>
        obtain ⟨d', -, rfl⟩ := Option.map_eq_some_iff.1 hstep
        rw [Bool.and_eq_true, decide_eq_true_eq] at hgive
        exact giveUp_inv h hdrive hgive.1
      · simp at hstep
    · simp at hstep

/-- At every moment of every interleaving at most one run is between its begin and the handling of
its end; the active slot and the queue name the same run, but for the time the actor spends in
`begin_run`; and the transcript is made of one block for each run begun, in that order, which is
part of the order in which the turns were accepted. -/
theorem serial (cfg : ActorCfg) (sessionId : String) (now : Nat) (acts : List Act) :
    Steps.AllStates (step cfg sessionId) (Serial sessionId) (new cfg now) acts := by
  refine Steps.allStates_iff.2 fun pre t _ hrun => Inv.isSerial ?_
  exact Steps.exec_invariant (fun _ _ _ h hs => step_inv h hs) (new_inv cfg sessionId now) hrun

/-- The first turn is accepted and its user message is being stored. -/
theorem serial_fails :
    ¬ ∀ (cfg : ActorCfg) (sessionId : String) (now : Nat) (acts : List Act),
      Steps.AllStates (step cfg sessionId) (fun x => x.slot = x.actor.queue.active) (new cfg now) acts := by
  intro h
  have hall := h testCfg "main" 0 [.cmd (.submit "a" "hi" (.conn 1) 0)]
  have hrun : (Steps.exec (step testCfg "main") (new testCfg 0)
      [.cmd (.submit "a" "hi" (.conn 1) 0)]).map (fun x => (x.slot, x.actor.queue.active)) =
      some (none, some "a") := by
    decide
  obtain ⟨x, hx, hfinal⟩ := Option.map_eq_some_iff.1 hrun
  simp only [Prod.mk.injEq] at hfinal
  have hslot := Steps.allStates_iff.1 hall _ x (List.prefix_refl _) hx
  simp [hfinal.1, hfinal.2] at hslot

end Served

end OhMyClaw
