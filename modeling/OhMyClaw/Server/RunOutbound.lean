import OhMyClaw.Server.RunLegs

/-!
# A run behind a full outbound queue

The events of a run go into the bounded queue of one connection, which other tasks fill as
well and which empties as the client reads.  A send into a full queue waits; nothing but room
in the queue or the end of the connection ends that wait, the cancel token does not.

    never_stuck_iff        when a cancelled run can always go on by itself
    never_stuck_fails      an abort while the run's start waits for a full queue
-/

namespace OhMyClaw

namespace Outbound

open Run (Drive Pc)

def outboundCap : Nat := 256

/-- A run and the connection of its client. -/
structure Link where
  drive : Drive
  /-- How many frames wait in the outbound queue. -/
  queued : Nat
  live : Bool
deriving DecidableEq, Repr

inductive Act where
  | run (a : Run.Act)
  /-- Another task puts a frame into the queue. -/
  | enqueue
  /-- The client reads, and a frame leaves the queue. -/
  | read
  | disconnect
deriving DecidableEq, Repr

/-- How a send may end: with room it succeeds, on a dead connection it fails at once, which a
detached sink does not report. -/
def answers (ctx : RunCtx) (l : Link) (ok : Bool) : Bool :=
  if l.live then ok && l.queued < outboundCap else ok = (ctx.sink = .detached : Bool)

/-- The frame of a send that succeeded is in the queue. -/
def Link.enqueue (l : Link) : Link := if l.live then { l with queued := l.queued + 1 } else l

def step (ctx : RunCtx) (l : Link) : Act → Option Link
  | .run (.sent ok) =>
    if answers ctx l ok then
      (Run.step ctx l.drive (.sent ok)).map fun drive => { l.enqueue with drive }
    else none
  | .run (.side e ok) =>
    if answers ctx l ok then
      (Run.step ctx l.drive (.side e ok)).map fun drive => { l.enqueue with drive }
    else none
  | .run .closed =>
    if l.live then none else (Run.step ctx l.drive .closed).map fun drive => { l with drive }
  | .run a => (Run.step ctx l.drive a).map fun drive => { l with drive }
  | .enqueue => if l.live && l.queued < outboundCap then some l.enqueue else none
  | .read => if l.live && 0 < l.queued then some { l with queued := l.queued - 1 } else none
  | .disconnect => if l.live then some { l with live := false } else none

/-- A run begins while `queued` frames wait for the client. -/
def start (ctx : RunCtx) (queued : Nat) : Link := { drive := Run.start ctx, queued, live := true }

/-- The steps of the run task itself, as against its pumps, those who abort it, and a panic. -/
def ownStep : Run.Act → Bool
  | .side _ _ => false
  | .abort => false
  | .panic => false
  | _ => true

/-- The run task can go on without the client doing anything. -/
def CanGoOn (ctx : RunCtx) (l : Link) : Prop :=
  ∃ a, ownStep a = true ∧ (step ctx l (.run a)).isSome = true

/-- A cancelled run that is not over and executes no tool can go on. -/
def NotStuck (ctx : RunCtx) (l : Link) : Prop :=
  l.drive.cancelled = true → (∀ call, l.drive.pc ≠ .toolRunning call) →
    (∀ o, l.drive.pc ≠ .done o) → CanGoOn ctx l

/-- A cancelled run that waits in a send has room in the queue, or no connection any more, or a
run timeout that is still to come. -/
def SendsOn (ctx : RunCtx) (l : Link) : Prop :=
  l.drive.cancelled = true → ∀ ev k, l.drive.pc = .sending ev k →
    l.queued < outboundCap ∨ l.live = false ∨ (ctx.runTimeout = true ∧ l.drive.timedOut = false)

theorem step_run {ctx : RunCtx} {l : Link} {a : Run.Act} (hsent : ∀ ok, a ≠ .sent ok)
    (hside : ∀ e ok, a ≠ .side e ok) (hclosed : a ≠ .closed) :
    step ctx l (.run a) = (Run.step ctx l.drive a).map fun drive => { l with drive } := by
  cases a with
  | sent ok => exact absurd rfl (hsent ok)
  | side e ok => exact absurd rfl (hside e ok)
  | closed => exact absurd rfl hclosed
  | _ => rfl

/-- The run timeout is the one thing that ends the wait of a send. -/
theorem canGoOn_runTimeout {ctx : RunCtx} {l : Link} (ht : ctx.runTimeout = true)
    (hfirst : l.drive.timedOut = false) (hpc : l.drive.pc.waits ctx.sink = true) :
    CanGoOn ctx l := by
  refine ⟨.runTimeout, rfl, ?_⟩
  rw [step_run (by simp) (by simp) (by simp)]
  simp [Run.step, ht, hfirst, hpc]

theorem canGoOn_sending {ctx : RunCtx} (hsink : ctx.sink ≠ .broadcast) {l : Link} {ev : Event}
    {k : Run.AfterSend} (hpc : l.drive.pc = .sending ev k) :
    CanGoOn ctx l ↔
      l.queued < outboundCap ∨ l.live = false ∨ (ctx.runTimeout = true ∧ l.drive.timedOut = false) := by
  constructor
  · rintro ⟨a, hown, hsome⟩
    obtain ⟨t, ht⟩ := Option.isSome_iff_exists.1 hsome
    by_cases hlive : l.live = true
    · -- On a live connection only the answer of the sink and the timeout are left.
      cases a with
      | sent ok =>
        simp only [step] at ht
        split at ht
        · next hans =>
          simp only [answers, hlive, if_true, Bool.and_eq_true, decide_eq_true_eq] at hans
          exact Or.inl hans.2
        · simp at ht
      | runTimeout =>
        rw [step_run (by simp) (by simp) (by simp), Option.map_eq_some_iff] at ht
        obtain ⟨drive, hdrive, -⟩ := ht
        cases Run.leg_of_step hdrive with
        | runTimeout hctx hfirst _ => exact Or.inr (Or.inr ⟨hctx, hfirst⟩)
      | side e ok => simp [ownStep] at hown
      | abort => simp [ownStep] at hown
      | panic => simp [ownStep] at hown
      | closed => simp [step, hlive] at ht
      | _ => simp [step, Run.step, hpc] at ht
    · exact Or.inr (Or.inl (by simpa using hlive))
  · intro h
    by_cases hlive : l.live = true
    · rcases h with hroom | hdead | ⟨htimeout, hfirst⟩
      · refine ⟨.sent true, rfl, ?_⟩
        simp [step, answers, hlive, hroom, Run.step, hpc, Run.mayAnswer]
      · simp [hlive] at hdead
      · exact canGoOn_runTimeout htimeout hfirst (by simp [hpc, Pc.waits, hsink])
    · have hdead : l.live = false := by simpa using hlive
      cases hkind : ctx.sink with
      | broadcast => exact absurd hkind hsink
      | conn =>
        refine ⟨.sent false, rfl, ?_⟩
        simp [step, answers, hdead, hkind, Run.step, hpc, Run.mayAnswer]
      | detached =>
        refine ⟨.sent true, rfl, ?_⟩
        simp [step, answers, hdead, hkind, Run.step, hpc, Run.mayAnswer]

theorem notStuck_iff {ctx : RunCtx} (hsink : ctx.sink ≠ .broadcast) (l : Link) :
    NotStuck ctx l ↔ SendsOn ctx l := by
  constructor
  · intro h hcancel ev k hpc
    exact (canGoOn_sending hsink hpc).1 (h hcancel (by simp [hpc]) (by simp [hpc]))
  · intro h hcancel hno hrunning
    cases hpc : l.drive.pc with
    | sending ev k => exact (canGoOn_sending hsink hpc).2 (h hcancel ev k hpc)
    | opening =>
      -- The provider's answer is nobody's but the provider's.
      refine ⟨.opened, rfl, ?_⟩
      simp [step, Run.step, hpc]
    | streaming tc =>
      refine ⟨.cancelled, rfl, ?_⟩
      simp [step, Run.step, hpc, hcancel]
    | persisting e k =>
      refine ⟨.stored true, rfl, ?_⟩
      simp [step, Run.step, hpc]
    | toolRunning call => exact absurd hpc (hno call)
    | done o => exact absurd hpc (hrunning o)

/-- In every state of a run on a connection, a cancelled run can go on without its client,
exactly if no cancelled run ever waits for a full queue that has no end in sight. -/
theorem never_stuck_iff (ctx : RunCtx) (hsink : ctx.sink = .conn ∨ ctx.sink = .detached)
    (queued : Nat) (acts : List Act) :
    Steps.AllStates (step ctx) (NotStuck ctx) (start ctx queued) acts ↔
      Steps.AllStates (step ctx) (SendsOn ctx) (start ctx queued) acts := by
  have hne : ctx.sink ≠ .broadcast := by
    rcases hsink with h | h <;> simp [h]
  have heq : NotStuck ctx = SendsOn ctx := funext fun l => propext (notStuck_iff hne l)
  rw [heq]

/-- A run without a timeout whose client is on a connection. -/
def connCtx : RunCtx :=
  { sessionId := "main", runId := "r1", userText := "hi", history := [], compactCfg := .default
    tools := false, runTimeout := false, sink := .conn }

theorem never_stuck_iff_conn :
    Steps.AllStates (step connCtx) (NotStuck connCtx) (start connCtx 0) [.run (.sent true), .run .abort] ↔
      Steps.AllStates (step connCtx) (SendsOn connCtx) (start connCtx 0)
        [.run (.sent true), .run .abort] :=
  never_stuck_iff connCtx (Or.inl rfl) 0 _

/-- The client has stopped reading; the run is aborted while its start waits for the queue. -/
theorem never_stuck_fails :
    ¬ ∀ (ctx : RunCtx), ctx.sink = .conn ∨ ctx.sink = .detached → ∀ (queued : Nat) (acts : List Act),
      Steps.AllStates (step ctx) (NotStuck ctx) (start ctx queued) acts := by
  intro h
  have hall := h connCtx (Or.inl rfl) outboundCap [.run .abort]
  have hrun : (Steps.exec (step connCtx) (start connCtx outboundCap) [.run .abort]).map
      (fun l => (l.drive.cancelled, l.drive.pc, l.queued, l.live)) =
      some (true, .sending (Run.lifecycle connCtx .start) .started, outboundCap, true) := by
    decide
  obtain ⟨l, hl, hstate⟩ := Option.map_eq_some_iff.1 hrun
  simp only [Prod.mk.injEq] at hstate
  obtain ⟨hcancel, hpc, hqueued, hlive⟩ := hstate
  have hgo := Steps.allStates_iff.1 hall _ l (List.prefix_refl _) hl hcancel (by simp [hpc]) (by simp [hpc])
  rcases (canGoOn_sending (by simp [connCtx]) hpc).1 hgo with hroom | hdead | ⟨htimeout, -⟩
  · simp [hqueued] at hroom
  · simp [hlive] at hdead
  · simp [connCtx] at htimeout

end Outbound

end OhMyClaw
