import OhMyClaw.Server.Registry
import OhMyClaw.Server.SessionLane

/-!
# Eviction of idle sessions

The registry knows one actor for each session.  An eviction asks the actors one after the other; an
idle one closes its mailbox, leaves its loop and says so, and what still lay in the mailbox is
dropped.  Then the actor is taken off the registry and, in a step of its own, the diagnostics slot of
the session is forgotten.  A new actor comes in two steps too: under the lock of its entry the slot is
made, then the actor is spawned and registered.  The slots have another lock, so a request can come
back to a session between the two steps of an eviction, or the eviction finish between its own two.

    healthy_iff          every registered actor has its slot, one actor for each key takes commands and
                         no accepted turn is lost, exactly if no slot is forgotten under a new actor
    healthy_fails        a session that comes back between the two steps
-/

namespace OhMyClaw

/-- What lies in the mailbox of an actor; requests and evictions are known by number. -/
inductive Mail where
  | submit (send : Nat) (text : String) (sink : RunSink)
  | evictIfIdle (eviction idleAfter : Nat)
  | cmd (c : Cmd)
deriving DecidableEq, Repr

/-- An actor, with the session it serves. -/
structure Spawned where
  key : String
  actor : Actor
  mailbox : List Mail
deriving DecidableEq

inductive SendPhase where
  /-- It calls `get_or_spawn`. -/
  | seeking
  /-- It has the handle of an actor. -/
  | asking
  /-- Its command is in the mailbox. -/
  | waiting
  | replied (runId : Option String)
  | done (result : Option String)
deriving DecidableEq, Repr

/-- A `chat.send`. -/
structure Send where
  session : String
  text : String
  sink : RunSink
  handle : Option Nat
  retried : Bool
  phase : SendPhase
deriving DecidableEq, Repr

/-- Who has called `get_or_spawn`. -/
inductive Caller where
  | send (s : Nat)
  /-- A resume or a compaction; what it does with the handle is a post. -/
  | other
deriving DecidableEq, Repr

inductive EvictPhase where
  /-- It collects the handles. -/
  | listing
  | next
  | asked (key : String) (handle : Nat)
  | answered (key : String) (evicted : Bool)
  /-- The actor is off the registry, the slot is still there. -/
  | removed (key : String)
deriving DecidableEq, Repr

/-- An `evict_idle`. -/
structure Eviction where
  idleAfter : Nat
  todo : List (String × Nat)
  phase : EvictPhase
  evicted : List String
deriving DecidableEq, Repr

structure Sessions where
  cfg : ActorCfg
  /-- All actors ever spawned; a handle is a place in this list. -/
  spawned : List Spawned
  registry : IdMap Nat
  /-- The entries locked by a `get_or_spawn` that is about to register an actor. -/
  opening : IdMap Caller
  slots : IdMap DiagState
  sends : List Send
  evictions : List Eviction
deriving DecidableEq

namespace Sessions

def mailboxCap : Nat := 64

/-! ## The registry -/

def isClosed (w : Sessions) (i : Nat) : Bool := (w.spawned[i]?).all (·.actor.closed)

/-- The entry is locked; who asks for it waits. -/
def isLocked (w : Sessions) (key : String) : Bool := (w.opening.lookup key).isSome

/-- `get_or_spawn` returns. -/
def handOut (w : Sessions) (i : Nat) : Caller → Sessions
  | .send s => { w with sends := w.sends.modify s fun x => { x with handle := some i, phase := .asking } }
  | .other => w

def forSession (key : String) (slots : IdMap DiagState) : IdMap DiagState :=
  if (slots.lookup key).isSome then slots else slots.insert key .default

/-- `spawn_actor` up to `for_session`, its last argument. -/
def lockEntry (w : Sessions) (key : String) (caller : Caller) : Sessions :=
  { w with slots := forSession key w.slots, opening := w.opening.insert key caller }

/-- The actor is spawned and put into the entry. -/
def spawnActor (w : Sessions) (key : String) (caller : Caller) (now : Nat) : Sessions :=
  ({ w with
    spawned := w.spawned ++ [{ key, actor := .new w.cfg now, mailbox := [] }]
    registry := w.registry.insert key w.spawned.length
    opening := w.opening.erase key } : Sessions).handOut w.spawned.length caller

/-- An actor that takes commands is handed out; a missing or a closed one is to be replaced. -/
def getOrSpawn (w : Sessions) (key : String) (caller : Caller) : Option Sessions :=
  if w.isLocked key then none
  else
    match w.registry.lookup key with
    | some i => if w.isClosed i then some (w.lockEntry key caller) else some (w.handOut i caller)
    | none => some (w.lockEntry key caller)

def init (cfg : ActorCfg) (now : Nat) : Sessions :=
  let empty : Sessions :=
    { cfg, spawned := [], registry := ∅, opening := ∅, slots := ∅, sends := [], evictions := [] }
  (empty.lockEntry "main" .other).spawnActor "main" .other now

/-! ## The actors -/

/-- A command that came into an open mailbox. -/
def post (w : Sessions) (i : Nat) (m : Mail) : Sessions :=
  { w with spawned := w.spawned.modify i fun c => { c with mailbox := c.mailbox ++ [m] } }

/-- There is a place in the mailbox of the actor. -/
def hasRoom (w : Sessions) (i : Nat) : Bool := (w.spawned[i]?).any (·.mailbox.length < mailboxCap)

/-- The actor handles a command; it reads and writes the slot of its session as long as there is one. -/
def observe (w : Sessions) (c : Spawned) (cmd : Cmd) : Actor × IdMap DiagState :=
  match w.slots.lookup c.key with
  | some d =>
    let a := Actor.handle w.cfg { c.actor with diag := d } cmd
    (a, w.slots.insert c.key a.diag)
  | none => (Actor.handle w.cfg { c.actor with diag := .default } cmd, w.slots)

def handled (w : Sessions) (i : Nat) (c : Spawned) (mailbox : List Mail) (cmd : Cmd) : Sessions :=
  { w with
    spawned := w.spawned.set i { c with actor := (w.observe c cmd).1, mailbox }
    slots := (w.observe c cmd).2 }

/-- An answer reaches the request that waits for this actor. -/
def reply (w : Sessions) (s i : Nat) (runId : Option String) : Sessions :=
  { w with
    sends := w.sends.modify s fun x =>
      if x.phase = .waiting ∧ x.handle = some i then { x with phase := .replied runId } else x }

def answered (i : Nat) (evicted : Bool) (x : Eviction) : Eviction :=
  match x.phase with
  | .asked key j => if j = i then { x with phase := .answered key evicted } else x
  | _ => x

def answer (w : Sessions) (e i : Nat) (evicted : Bool) : Sessions :=
  { w with evictions := w.evictions.modify e (answered i evicted) }

/-- A command that is dropped with the mailbox answers nothing, and its sender is told so. -/
def dropMail (i : Nat) (w : Sessions) : Mail → Sessions
  | .submit s _ _ => w.reply s i none
  | .evictIfIdle e _ => w.answer e i false
  | .cmd _ => w

def fresh (w : Sessions) (runId : String) : Bool :=
  runId ≠ "" && w.spawned.all fun c => !c.actor.issued.contains runId

/-- What the submitter is told. -/
def submitReply (c : Spawned) (runId text : String) : Option String :=
  match (c.actor.queue.submit { runId, text }).2 with
  | .rejected => none
  | _ => some runId

/-- One turn of the loop of an actor. -/
def turn (w : Sessions) (i : Nat) (runId : String) (now : Nat) : Option Sessions :=
  match w.spawned[i]? with
  | none => none
  | some c =>
    if c.actor.closed then none
    else
      match c.mailbox with
      | [] => none
      | .submit s text sink :: rest =>
        if w.fresh runId then
          some ((w.handled i c rest (.submit runId text sink now)).reply s i (submitReply c runId text))
        else none
      | .evictIfIdle e idleAfter :: rest =>
        if (c.actor.onEvictIfIdle idleAfter now).closed then
          -- The mailbox is closed before the answer, and dropped with what is in it.
          some (rest.foldl (dropMail i) ((w.handled i c [] (.evictIfIdle idleAfter now)).answer e i true))
        else some ((w.handled i c rest (.evictIfIdle idleAfter now)).answer e i false)
      | .cmd cmd :: rest => some (w.handled i c rest cmd)

/-! ## Requests and evictions -/

def setSend (w : Sessions) (s : Nat) (x : Send) : Sessions := { w with sends := w.sends.set s x }

def setEviction (w : Sessions) (e : Nat) (x : Eviction) : Sessions := { w with evictions := w.evictions.set e x }

/-- The next step of a `chat.send`. -/
def send (w : Sessions) (s : Nat) : Option Sessions :=
  match w.sends[s]? with
  | none => none
  | some x =>
    match x.phase, x.handle with
    | .seeking, _ => w.getOrSpawn x.session (.send s)
    | .asking, some i =>
      if w.isClosed i then some (w.setSend s { x with phase := .replied none })
      else if w.hasRoom i then some ((w.post i (.submit s x.text x.sink)).setSend s { x with phase := .waiting })
      else none
    | .replied runId, some i =>
      if runId = none ∧ !x.retried ∧ w.isClosed i then
        some (w.setSend s { x with retried := true, phase := .seeking })
      else some (w.setSend s { x with phase := .done runId })
    | _, _ => none

/-- The entries are read one after the other, each under its lock. -/
def list (w : Sessions) (e : Nat) (key : String) : Option Sessions :=
  match w.evictions[e]?, w.registry.lookup key with
  | some x, some i =>
    if x.phase = .listing ∧ key ≠ "main" ∧ key ∉ x.todo.map Prod.fst ∧ !w.isLocked key then
      some (w.setEviction e { x with todo := x.todo ++ [(key, i)] })
    else none
  | _, _ => none

/-- The next step of an `evict_idle`. -/
def evict (w : Sessions) (e : Nat) : Option Sessions :=
  match w.evictions[e]? with
  | none => none
  | some x =>
    match x.phase with
    | .listing => some (w.setEviction e { x with phase := .next })
    | .next =>
      match x.todo with
      | [] => none
      | (key, i) :: todo =>
        if w.isClosed i || !w.hasRoom i then some (w.setEviction e { x with todo })
        else some ((w.post i (.evictIfIdle e x.idleAfter)).setEviction e { x with todo, phase := .asked key i })
    | .asked _ _ => none
    | .answered key evicted =>
      if evicted then
        -- `remove_if` asks for the entry.
        if w.isLocked key then none
        else if (w.registry.lookup key).any w.isClosed then
          some ({ w with registry := w.registry.erase key }.setEviction e { x with phase := .removed key })
        else some (w.setEviction e { x with phase := .next })
      else some (w.setEviction e { x with phase := .next })
    | .removed key =>
      some ({ w with slots := w.slots.erase key }.setEviction e { x with phase := .next, evicted := x.evicted ++ [key] })

/-- What goes into a mailbox besides submissions and evictions, and what a run does beside its actor. -/
def isPosted : Cmd → Bool
  | .abort _ _ | .compact _ | .finished _ _ _ | .resume _ | .healthScan _ => true
  | _ => false

def isTask : Cmd → Bool
  | .runProgress _ | .runCancels | .runTerminal => true
  | _ => false

inductive Act where
  | getOrSpawn (key : String)
  | spawnActor (key : String) (now : Nat)
  | chatSend (session text : String) (sink : RunSink)
  | send (s : Nat)
  | evictIdle (idleAfter : Nat)
  | list (e : Nat) (key : String)
  | evict (e : Nat)
  /-- An actor does not answer an eviction in time. -/
  | timeout (e : Nat)
  | post (i : Nat) (c : Cmd)
  | task (i : Nat) (c : Cmd)
  | turn (i : Nat) (runId : String) (now : Nat)
deriving DecidableEq, Repr

def step (w : Sessions) : Act → Option Sessions
  | .getOrSpawn key => w.getOrSpawn key .other
  | .spawnActor key now =>
    match w.opening.lookup key with
    | some caller => some (w.spawnActor key caller now)
    | none => none
  | .chatSend session text sink =>
    some { w with sends := w.sends ++ [{ session, text, sink, handle := none, retried := false, phase := .seeking }] }
  | .send s => w.send s
  | .evictIdle idleAfter =>
    some { w with evictions := w.evictions ++ [{ idleAfter, todo := [], phase := .listing, evicted := [] }] }
  | .list e key => w.list e key
  | .evict e => w.evict e
  | .timeout e =>
    match w.evictions[e]? with
    | some x =>
      match x.phase with
      | .asked _ _ => some (w.setEviction e { x with phase := .next })
      | _ => none
    | none => none
  | .post i c => if isPosted c && !w.isClosed i && w.hasRoom i then some (w.post i (.cmd c)) else none
  | .task i c =>
    match w.spawned[i]? with
    | some x => if isTask c && !x.actor.closed then some (w.handled i x x.mailbox c) else none
    | none => none
  | .turn i runId now => w.turn i runId now

/-! ## What is to hold -/

/-- The run id a request was given. -/
def givenRun (x : Send) : Option String :=
  match x.phase with
  | .replied r => r
  | .done r => r
  | _ => none

structure Healthy (w : Sessions) : Prop where
  /-- A registered actor has a live diagnostics slot. -/
  slots : ∀ k i, w.registry.lookup k = some i → (w.slots.lookup k).isSome
  /-- At most one actor of a session takes commands. -/
  single : ∀ (i j : Nat) (c d : Spawned), w.spawned[i]? = some c → w.spawned[j]? = some d → c.key = d.key →
    c.actor.closed = false → d.actor.closed = false → i = j
  /-- The turn of a request that was given a run id was taken by an actor of its session, and did not leave
  with it: an evicted actor had nothing running and nothing waiting. -/
  kept : ∀ x ∈ w.sends, ∀ r, givenRun x = some r → ∃ i c, x.handle = some i ∧ w.spawned[i]? = some c ∧
    c.key = x.session ∧ r ∈ c.actor.accepted ∧ (c.actor.closed = true → c.actor.active = none ∧ c.actor.waiting = [])

/-- The key whose slot the next step of the eviction forgets. -/
def forgets (w : Sessions) (e : Nat) : Option String :=
  match w.evictions[e]? with
  | some x =>
    match x.phase with
    | .removed key => some key
    | _ => none
  | none => none

/-- A slot is forgotten only while its key has no new actor, neither in the registry nor on the way there. -/
def Unclaimed (w : Sessions) : Act → Prop
  | .evict e => ∀ k ∈ w.forgets e, w.registry.lookup k = none ∧ w.opening.lookup k = none
  | _ => True

instance (w : Sessions) : ∀ a, Decidable (Unclaimed w a)
  | .evict e => inferInstanceAs (Decidable (∀ k ∈ w.forgets e, _ ∧ _))
  | .getOrSpawn _ | .spawnActor .. | .chatSend .. | .send _ | .evictIdle _ | .list .. | .timeout _ | .post ..
  | .task .. | .turn .. => isTrue trivial

end Sessions

/-! ## What a command does to an actor that goes on -/

namespace Actor

theorem accepted_handle (cfg : ActorCfg) (a : Actor) (c : Cmd) {r : String} (hr : r ∈ a.accepted) :
    r ∈ (handle cfg a c).accepted := by
  by_cases hc : movesLane c = false
  · rw [(sameLane_handle cfg a c hc).accepted]
    exact hr
  cases c with
  | submit r' text sink now =>
    show r ∈ (a.onSubmit r' text sink now).accepted
    cases submitted_onSubmit a r' text sink now with
    | started _ _ _ _ _ haccepted _ =>
      rw [haccepted]
      exact List.mem_append_left _ hr
    | queued _ _ _ _ _ haccepted _ =>
      rw [haccepted]
      exact List.mem_append_left _ hr
    | rejected _ _ _ _ haccepted _ =>
      rw [haccepted]
      exact hr
  | abort r' hard =>
    obtain rfl : hard = true := by simpa [movesLane] using hc
    obtain ⟨b, hsame, heq⟩ := onAbort_hard a r'
    show r ∈ (a.onAbort r' true).accepted
    rw [heq]
    show r ∈ b.accepted
    rw [hsame.accepted]
    exact hr
  | finished r' outcome now =>
    show r ∈ (a.onFinished r' now).accepted
    cases ended_onFinished a r' now with
    | stale hsame =>
      rw [hsame.accepted]
      exact hr
    | idle _ _ _ _ _ _ haccepted _ =>
      rw [haccepted]
      exact hr
    | next _ _ _ _ _ _ _ _ haccepted _ =>
      rw [haccepted]
      exact hr
  | _ => exact absurd rfl hc

theorem closed_onSubmit (a : Actor) (runId text : String) (sink : RunSink) (now : Nat) :
    (a.onSubmit runId text sink now).closed = a.closed := by
  unfold onSubmit
  dsimp only
  split <;> rfl

theorem closed_onAbort (a : Actor) (runId : String) (hard : Bool) : (a.onAbort runId hard).closed = a.closed := by
  rcases a with ⟨queue, _ | run, _⟩
  · cases hard <;> rfl
  · cases hard <;> simp only [onAbort, if_true, Bool.false_eq_true, if_false] <;> split <;> rfl

theorem closed_onFinished (a : Actor) (runId : String) (now : Nat) :
    (a.onFinished runId now).closed = a.closed := by
  unfold onFinished
  dsimp only
  split
  · split <;> rfl
  · rfl

theorem closed_onHealthScan (cfg : ActorCfg) (a : Actor) (now : Nat) :
    (onHealthScan cfg a now).closed = a.closed := by
  unfold onHealthScan
  split
  · dsimp only
    split <;> rfl
  · rfl

/-- Only an eviction ends the loop, and only of an actor with nothing to do. -/
theorem closed_handle {cfg : ActorCfg} {a : Actor} {c : Cmd} (hopen : a.closed = false)
    (hclosed : (handle cfg a c).closed = true) :
    (handle cfg a c).active = none ∧ (handle cfg a c).waiting = [] := by
  have hsame (h : (handle cfg a c).closed = a.closed) : False := by
    rw [h, hopen] at hclosed
    cases hclosed
  cases c with
  | submit runId text sink now => exact (hsame (closed_onSubmit ..)).elim
  | abort runId hard => exact (hsame (closed_onAbort ..)).elim
  | finished runId outcome now => exact (hsame (closed_onFinished ..)).elim
  | healthScan now => exact (hsame (closed_onHealthScan ..)).elim
  | evictIfIdle idleAfter now =>
    have heq : handle cfg a (.evictIfIdle idleAfter now) = a.onEvictIfIdle idleAfter now := rfl
    rw [heq] at hsame ⊢
    unfold onEvictIfIdle at hsame ⊢
    split
    · rename_i hbusy
      exact (hsame (by rw [if_pos hbusy])).elim
    · rename_i hidle
      simp only [not_or, Bool.not_eq_true, Option.isSome_eq_false_iff, Option.isNone_iff_eq_none, not_lt,
        Nat.le_zero, List.length_eq_zero_iff] at hidle
      refine ⟨hidle.1, ?_⟩
      show List.map _ a.queue.pending = []
      rw [hidle.2.1]
      rfl
  | runTerminal =>
    refine (hsame ?_).elim
    simp only [handle]
    split <;> rfl
  | _ => exact (hsame rfl).elim

end Actor

namespace Sessions

/-- A submitter is told the run id only of a turn the actor has taken. -/
theorem mem_accepted_of_submitReply {c : Spawned} {a : Actor} (hqueue : a.queue = c.actor.queue)
    {runId text r : String} {sink : RunSink} {now : Nat} (h : submitReply c runId text = some r) :
    r ∈ (a.onSubmit runId text sink now).accepted := by
  unfold submitReply at h
  rw [← hqueue] at h
  unfold Actor.onSubmit
  dsimp only
  split
  · rename_i hr
    rw [Actor.park_queue] at hr
    rw [hr] at h
    obtain rfl := Option.some.inj h
    exact List.mem_append_right _ (List.mem_singleton_self _)
  · rename_i hr
    rw [Actor.park_queue] at hr
    rw [hr] at h
    obtain rfl := Option.some.inj h
    exact List.mem_append_right _ (List.mem_singleton_self _)
  · rename_i hr
    rw [Actor.park_queue] at hr
    rw [hr] at h
    cases h

/-! ## What goes on is the same actor -/

/-- `d` is the actor `c` after some commands, or after none. -/
structure Later (c d : Spawned) : Prop where
  key : d.key = c.key
  accepted : ∀ r ∈ c.actor.accepted, r ∈ d.actor.accepted
  closed : c.actor.closed = true → d.actor = c.actor
  idle : c.actor.closed = false → d.actor.closed = true → d.actor.active = none ∧ d.actor.waiting = []

theorem Later.mailbox (c : Spawned) (mailbox : List Mail) : Later c { c with mailbox } where
  key := rfl
  accepted := fun _ h => h
  closed := fun _ => rfl
  idle := fun hopen hclosed => absurd (hopen.symm.trans hclosed) Bool.false_ne_true

/-- Every actor is still in its place. -/
def Grown (cells cells' : List Spawned) : Prop :=
  ∀ (i : Nat) (c : Spawned), cells[i]? = some c → ∃ d, cells'[i]? = some d ∧ Later c d

theorem Grown.refl (cells : List Spawned) : Grown cells cells := fun _ c h => ⟨c, h, .mailbox c c.mailbox⟩

theorem Grown.append (cells new : List Spawned) : Grown cells (cells ++ new) := by
  intro i c h
  obtain ⟨hlt, -⟩ := List.getElem?_eq_some_iff.1 h
  exact ⟨c, by rw [List.getElem?_append_left hlt]; exact h, .mailbox c c.mailbox⟩

theorem Grown.modify (cells : List Spawned) (i : Nat) {f : Spawned → Spawned} (hf : ∀ c, Later c (f c)) :
    Grown cells (cells.modify i f) := by
  intro j c h
  rw [List.getElem?_modify, h]
  by_cases hij : i = j
  · exact ⟨f c, by simp [hij], hf c⟩
  · exact ⟨c, by simp [hij], .mailbox c c.mailbox⟩

theorem Grown.set {cells : List Spawned} {i : Nat} {c d : Spawned} (hc : cells[i]? = some c) (hd : Later c d) :
    Grown cells (cells.set i d) := by
  intro j b h
  by_cases hij : i = j
  · subst hij
    obtain rfl := Option.some.inj (hc.symm.trans h)
    obtain ⟨hlt, -⟩ := List.getElem?_eq_some_iff.1 hc
    exact ⟨d, List.getElem?_set_self hlt, hd⟩
  · exact ⟨b, by rw [List.getElem?_set_ne hij]; exact h, .mailbox b b.mailbox⟩

/-- A request that has its handle has the one of an actor of its session; the run id it was given is of a turn taken
there. -/
def Served (cells : List Spawned) (x : Send) : Prop :=
  x.phase = .seeking ∨ ∃ i c, x.handle = some i ∧ cells[i]? = some c ∧ c.key = x.session ∧
    ∀ r, givenRun x = some r → r ∈ c.actor.accepted

theorem Served.grown {cells cells' : List Spawned} {x : Send} (h : Served cells x) (hgrown : Grown cells cells') :
    Served cells' x := by
  rcases h with hseeking | ⟨i, c, hi, hc, hkey, hgiven⟩
  · exact Or.inl hseeking
  · obtain ⟨d, hd, hlater⟩ := hgrown _ _ hc
    exact Or.inr ⟨i, d, hi, hd, hlater.key.trans hkey, fun r hr => hlater.accepted r (hgiven r hr)⟩

/-- Every request is still in its place, for its session. -/
def Named (sends sends' : List Send) : Prop :=
  ∀ (s : Nat) (x : Send), sends[s]? = some x → ∃ y, sends'[s]? = some y ∧ y.session = x.session

theorem Named.refl (sends : List Send) : Named sends sends := fun _ x hx => ⟨x, hx, rfl⟩

theorem Named.append (sends new : List Send) : Named sends (sends ++ new) := by
  intro s x hx
  obtain ⟨hlt, -⟩ := List.getElem?_eq_some_iff.1 hx
  exact ⟨x, by rw [List.getElem?_append_left hlt]; exact hx, rfl⟩

theorem Named.modify (sends : List Send) (s : Nat) {f : Send → Send} (hf : ∀ x, (f x).session = x.session) :
    Named sends (sends.modify s f) := by
  intro t x hx
  rw [List.getElem?_modify, hx]
  by_cases hst : s = t
  · exact ⟨f x, by simp [hst], hf x⟩
  · exact ⟨x, by simp [hst], rfl⟩

theorem Named.set {sends : List Send} {s : Nat} {x y : Send} (hx : sends[s]? = some x) (hy : y.session = x.session) :
    Named sends (sends.set s y) := by
  intro t z hz
  by_cases hst : s = t
  · subst hst
    obtain rfl := Option.some.inj (hx.symm.trans hz)
    obtain ⟨hlt, -⟩ := List.getElem?_eq_some_iff.1 hx
    exact ⟨y, List.getElem?_set_self hlt, hy⟩
  · exact ⟨z, by rw [List.getElem?_set_ne hst]; exact hz, rfl⟩

/-! ## The invariant -/

/-- What every interleaving keeps.  The slots are there as long as it has been `tidy`. -/
structure Sound (tidy : Prop) (w : Sessions) : Prop where
  registered : ∀ k i, w.registry.lookup k = some i → ∃ c, w.spawned[i]? = some c ∧ c.key = k
  /-- Who takes commands is registered. -/
  open_registered : ∀ (i : Nat) (c : Spawned), w.spawned[i]? = some c → c.actor.closed = false → w.registry.lookup c.key = some i
  idle : ∀ (i : Nat) (c : Spawned), w.spawned[i]? = some c → c.actor.closed = true → c.actor.active = none ∧ c.actor.waiting = []
  served : ∀ x ∈ w.sends, Served w.spawned x
  /-- A locked entry holds no actor that takes commands. -/
  locked : ∀ k, w.isLocked k = true → ∀ i, w.registry.lookup k = some i → w.isClosed i = true
  /-- The entry is locked for a request of its session. -/
  callers : ∀ k s, w.opening.lookup k = some (.send s) → ∃ x, w.sends[s]? = some x ∧ x.session = k
  slots : tidy → ∀ k, (w.registry.lookup k).isSome ∨ w.isLocked k = true → (w.slots.lookup k).isSome

variable {tidy : Prop} {w : Sessions}

theorem isClosed_eq {i : Nat} {c : Spawned} (h : w.spawned[i]? = some c) : w.isClosed i = c.actor.closed := by
  unfold isClosed
  rw [h]
  rfl

theorem isLocked_of_lookup {k : String} {caller : Caller} (h : w.opening.lookup k = some caller) :
    w.isLocked k = true := by
  unfold isLocked
  rw [h]
  rfl

/-- What has closed stays closed. -/
theorem isClosed_grown {w' : Sessions} (hgrown : Grown w.spawned w'.spawned) {i : Nat} {c : Spawned}
    (hc : w.spawned[i]? = some c) (hclosed : w.isClosed i = true) : w'.isClosed i = true := by
  rw [isClosed_eq hc] at hclosed
  obtain ⟨d, hd, hlater⟩ := hgrown i c hc
  rw [isClosed_eq hd, hlater.closed hclosed]
  exact hclosed

theorem Sound.healthy (hw : Sound True w) : Healthy w where
  slots := fun k i hk => hw.slots trivial k (Or.inl (by rw [hk]; rfl))
  single := by
    intro i j c d hc hd hkey hcopen hdopen
    have hi := hw.open_registered i c hc hcopen
    have hj := hw.open_registered j d hd hdopen
    rw [hkey, hj] at hi
    exact (Option.some.inj hi).symm
  kept := by
    intro x hx r hr
    rcases hw.served x hx with hseeking | ⟨i, c, hi, hc, hkey, hgiven⟩
    · unfold givenRun at hr
      rw [hseeking] at hr
      cases hr
    · exact ⟨i, c, hi, hc, hkey, hgiven r hr, hw.idle i c hc⟩

/-! ### Actors that go on -/

theorem Sound.grown {w' : Sessions} (hw : Sound tidy w) (hgrown : Grown w.spawned w'.spawned)
    (hlength : w'.spawned.length = w.spawned.length) (hregistry : w'.registry = w.registry)
    (hopening : w'.opening = w.opening) (hsends : w'.sends = w.sends)
    (hslots : ∀ k, (w.slots.lookup k).isSome → (w'.slots.lookup k).isSome) : Sound tidy w' := by
  have hback (i : Nat) (d : Spawned) (hd : w'.spawned[i]? = some d) : ∃ c, w.spawned[i]? = some c ∧ Later c d := by
    obtain ⟨hlt, -⟩ := List.getElem?_eq_some_iff.1 hd
    have hc := List.getElem?_eq_getElem (hlength ▸ hlt)
    obtain ⟨d', hd', hlater⟩ := hgrown i _ hc
    obtain rfl := Option.some.inj (hd.symm.trans hd')
    exact ⟨_, hc, hlater⟩
  have hlocked (k : String) : w'.isLocked k = w.isLocked k := by
    unfold isLocked
    rw [hopening]
  constructor
  · intro k i hk
    obtain ⟨c, hc, rfl⟩ := hw.registered k i (hregistry ▸ hk)
    obtain ⟨d, hd, hlater⟩ := hgrown i c hc
    exact ⟨d, hd, hlater.key⟩
  · intro i d hd hopen
    obtain ⟨c, hc, hlater⟩ := hback i d hd
    rw [hregistry, hlater.key]
    refine hw.open_registered i c hc ?_
    by_contra hclosed
    rw [Bool.not_eq_false] at hclosed
    rw [hlater.closed hclosed, hclosed] at hopen
    cases hopen
  · intro i d hd hclosed
    obtain ⟨c, hc, hlater⟩ := hback i d hd
    by_cases hopen : c.actor.closed = false
    · exact hlater.idle hopen hclosed
    · rw [Bool.not_eq_false] at hopen
      rw [hlater.closed hopen]
      exact hw.idle i c hc hopen
  · intro x hx
    exact (hw.served x (hsends ▸ hx)).grown hgrown
  · intro k hk i hi
    rw [hlocked] at hk
    rw [hregistry] at hi
    obtain ⟨c, hc, -⟩ := hw.registered k i hi
    exact isClosed_grown hgrown hc (hw.locked k hk i hi)
  · intro k s hk
    rw [hopening] at hk
    rw [hsends]
    exact hw.callers k s hk
  · intro ht k hk
    rw [hregistry, hlocked] at hk
    exact hslots k (hw.slots ht k hk)

theorem Sound.post (hw : Sound tidy w) (i : Nat) (m : Mail) : Sound tidy (w.post i m) :=
  hw.grown (Grown.modify _ _ fun c => .mailbox c _) (List.length_modify ..) rfl rfl rfl fun _ h => h

/-- The actor handles the command, whatever is in its slot. -/
theorem observe_actor (w : Sessions) (c : Spawned) (cmd : Cmd) :
    ∃ d, (w.observe c cmd).1 = Actor.handle w.cfg { c.actor with diag := d } cmd := by
  unfold observe
  split
  · exact ⟨_, rfl⟩
  · exact ⟨_, rfl⟩

theorem later_observe (c : Spawned) (mailbox : List Mail) (cmd : Cmd) (hopen : c.actor.closed = false) :
    Later c { c with actor := (w.observe c cmd).1, mailbox } := by
  obtain ⟨d, hd⟩ := w.observe_actor c cmd
  refine ⟨rfl, fun r hr => ?_, fun hclosed => ?_, fun _ hclosed => ?_⟩
  · show r ∈ (w.observe c cmd).1.accepted
    rw [hd]
    exact Actor.accepted_handle w.cfg { c.actor with diag := d } cmd hr
  · rw [hopen] at hclosed
    cases hclosed
  · show (w.observe c cmd).1.active = none ∧ (w.observe c cmd).1.waiting = []
    change (w.observe c cmd).1.closed = true at hclosed
    rw [hd] at hclosed ⊢
    exact Actor.closed_handle hopen hclosed

/-- A command writes to a slot that is there, and makes none. -/
theorem isSome_observe (c : Spawned) (cmd : Cmd) (k : String) (h : (w.slots.lookup k).isSome) :
    ((w.observe c cmd).2.lookup k).isSome := by
  unfold observe
  split
  · by_cases hk : k = c.key
    · subst hk
      simp
    · dsimp only
      rw [AList.lookup_insert_ne hk]
      exact h
  · exact h

theorem Sound.handled (hw : Sound tidy w) {i : Nat} {c : Spawned} (hc : w.spawned[i]? = some c)
    (hopen : c.actor.closed = false) (mailbox : List Mail) (cmd : Cmd) : Sound tidy (w.handled i c mailbox cmd) :=
  hw.grown (Grown.set hc (later_observe c mailbox cmd hopen)) List.length_set rfl rfl rfl (isSome_observe c cmd)

/-! ### Requests and evictions -/

theorem Sound.evictions (hw : Sound tidy w) (evictions : List Eviction) : Sound tidy { w with evictions } :=
  hw.grown (.refl _) rfl rfl rfl rfl fun _ h => h

theorem Sound.sends (hw : Sound tidy w) {sends : List Send} (hnamed : Named w.sends sends)
    (h : ∀ x ∈ sends, x ∈ w.sends ∨ Served w.spawned x) : Sound tidy { w with sends } := by
  refine ⟨hw.registered, hw.open_registered, hw.idle, ?_, hw.locked, ?_, hw.slots⟩
  · intro x hx
    exact (h x hx).elim (hw.served x) id
  · intro k s hk
    obtain ⟨x, hx, rfl⟩ := hw.callers k s hk
    exact hnamed s x hx

theorem Sound.modifySend (hw : Sound tidy w) (s : Nat) {f : Send → Send} (hf : ∀ x, (f x).session = x.session)
    (h : ∀ x, w.sends[s]? = some x → Served w.spawned (f x)) : Sound tidy { w with sends := w.sends.modify s f } := by
  refine hw.sends (.modify _ s hf) fun y hy => ?_
  obtain ⟨t, ht⟩ := List.mem_iff_getElem?.1 hy
  rw [List.getElem?_modify, Option.map_eq_map, Option.map_eq_some_iff] at ht
  obtain ⟨x, hx, rfl⟩ := ht
  by_cases hst : s = t
  · subst hst
    rw [if_pos rfl]
    exact Or.inr (h x hx)
  · rw [if_neg hst]
    exact Or.inl (List.mem_of_getElem? hx)

theorem Sound.setSend (hw : Sound tidy w) {s : Nat} {x y : Send} (hx : w.sends[s]? = some x)
    (hsession : y.session = x.session) (hy : Served w.spawned y) : Sound tidy (w.setSend s y) := by
  refine hw.sends (.set hx hsession) fun z hz => ?_
  rcases List.mem_or_eq_of_mem_set hz with hold | rfl
  · exact Or.inl hold
  · exact Or.inr hy

/-- A request is told of a turn that its actor has taken. -/
theorem Sound.reply (hw : Sound tidy w) (s : Nat) {i : Nat} {runId : Option String}
    (h : ∀ c, w.spawned[i]? = some c → ∀ r, runId = some r → r ∈ c.actor.accepted) :
    Sound tidy (w.reply s i runId) := by
  refine hw.modifySend s (fun x => ?_) fun x hx => ?_
  · split <;> rfl
  · by_cases hwait : x.phase = .waiting ∧ x.handle = some i
    · rw [if_pos hwait]
      rcases hw.served x (List.mem_of_getElem? hx) with hseeking | ⟨j, c, hj, hc, hkey, -⟩
      · rw [hwait.1] at hseeking
        cases hseeking
      · obtain rfl := Option.some.inj (hwait.2.symm.trans hj)
        exact Or.inr ⟨i, c, hwait.2, hc, hkey, h c hc⟩
    · rw [if_neg hwait]
      exact hw.served x (List.mem_of_getElem? hx)

theorem Sound.dropMail (hw : Sound tidy w) (i : Nat) (m : Mail) : Sound tidy (dropMail i w m) := by
  cases m with
  | submit s text sink => exact hw.reply s fun _ _ r hr => nomatch hr
  | evictIfIdle e idleAfter => exact hw.evictions _
  | cmd c => exact hw

theorem Sound.dropMails (hw : Sound tidy w) (i : Nat) (mails : List Mail) :
    Sound tidy (mails.foldl (Sessions.dropMail i) w) := by
  induction mails generalizing w with
  | nil => exact hw
  | cons m mails ih => exact ih (hw.dropMail i m)

/-! ### The registry -/

theorem getElem?_concat {cells : List Spawned} {i : Nat} {c d : Spawned} (h : (cells ++ [c])[i]? = some d) :
    cells[i]? = some d ∨ i = cells.length ∧ c = d := by
  by_cases hlt : i < cells.length
  · rw [List.getElem?_append_left hlt] at h
    exact Or.inl h
  · rw [List.getElem?_append_right (Nat.le_of_not_lt hlt), List.getElem?_singleton] at h
    split at h
    · rename_i hzero
      exact Or.inr ⟨by omega, Option.some.inj h⟩
    · cases h

theorem isSome_forSession (key k : String) (slots : IdMap DiagState) :
    ((forSession key slots).lookup k).isSome ↔ k = key ∨ (slots.lookup k).isSome := by
  unfold forSession
  by_cases hslot : (slots.lookup key).isSome
  · rw [if_pos hslot]
    constructor
    · exact Or.inr
    · rintro (rfl | h)
      · exact hslot
      · exact h
  · rw [if_neg hslot]
    by_cases hk : k = key
    · subst hk
      simp
    · rw [AList.lookup_insert_ne hk]
      simp [hk]

/-- The caller of `get_or_spawn` gets an actor of the session it has asked for. -/
theorem Sound.handOut (hw : Sound tidy w) {i : Nat} {c : Spawned} (hc : w.spawned[i]? = some c) {caller : Caller}
    (hcaller : ∀ s, caller = .send s → ∃ x, w.sends[s]? = some x ∧ x.session = c.key) :
    Sound tidy (w.handOut i caller) := by
  cases caller with
  | other => exact hw
  | send s =>
    refine hw.modifySend s (fun _ => rfl) fun x hx => Or.inr ⟨i, c, rfl, hc, ?_, fun r hr => nomatch hr⟩
    obtain ⟨y, hy, hkey⟩ := hcaller s rfl
    obtain rfl := Option.some.inj (hx.symm.trans hy)
    exact hkey.symm

theorem isLocked_lockEntry (w : Sessions) (key k : String) (caller : Caller) :
    (w.lockEntry key caller).isLocked k = true ↔ k = key ∨ w.isLocked k = true := by
  unfold isLocked lockEntry
  by_cases hk : k = key
  · subst hk
    simp
  · rw [AList.lookup_insert_ne hk]
    simp [hk]

/-- Only an entry without an open actor is locked. -/
theorem Sound.lockEntry (hw : Sound tidy w) {key : String}
    (hfree : ∀ i, w.registry.lookup key = some i → w.isClosed i = true) {caller : Caller}
    (hcaller : ∀ s, caller = .send s → ∃ x, w.sends[s]? = some x ∧ x.session = key) :
    Sound tidy (w.lockEntry key caller) := by
  refine ⟨hw.registered, hw.open_registered, hw.idle, hw.served, ?_, ?_, ?_⟩
  · intro k hk i hi
    rcases (isLocked_lockEntry ..).1 hk with rfl | hold
    · exact hfree i hi
    · exact hw.locked k hold i hi
  · intro k s hk
    rcases IdMap.of_lookup_insert hk with ⟨rfl, heq⟩ | ⟨-, hold⟩
    · exact hcaller s heq.symm
    · exact hw.callers k s hold
  · intro ht k hk
    rw [isLocked_lockEntry] at hk
    refine (isSome_forSession ..).2 ?_
    rcases hk with hreg | rfl | hold
    · exact Or.inr (hw.slots ht k (Or.inl hreg))
    · exact Or.inl rfl
    · exact Or.inr (hw.slots ht k (Or.inr hold))

/-- A new actor takes the place of one that has closed. -/
theorem Sound.spawnActor (hw : Sound tidy w) {key : String} {caller : Caller}
    (hcaller : w.opening.lookup key = some caller) (now : Nat) : Sound tidy (w.spawnActor key caller now) := by
  have hlocked := isLocked_of_lookup hcaller
  refine Sound.handOut (c := { key, actor := .new w.cfg now, mailbox := [] }) ?_ List.getElem?_concat_length ?_
  · refine ⟨fun k i hk => ?_, fun i d hd hopen => ?_, fun i d hd hclosed => ?_, fun x hx => ?_, fun k hk i hi => ?_,
      fun k s hk => ?_, fun ht k hk => ?_⟩
    · rcases IdMap.of_lookup_insert hk with ⟨rfl, rfl⟩ | ⟨-, hold⟩
      · exact ⟨_, List.getElem?_concat_length, rfl⟩
      · obtain ⟨c, hc, rfl⟩ := hw.registered k i hold
        obtain ⟨d, hd, hlater⟩ := Grown.append w.spawned _ i c hc
        exact ⟨d, hd, hlater.key⟩
    · rcases getElem?_concat hd with hold | ⟨rfl, rfl⟩
      · have hreg := hw.open_registered i d hold hopen
        have hne : d.key ≠ key := by
          rintro rfl
          have hclosed := hw.locked _ hlocked i hreg
          rw [isClosed_eq hold, hopen] at hclosed
          cases hclosed
        exact (AList.lookup_insert_ne hne).trans hreg
      · exact AList.lookup_insert _
    · rcases getElem?_concat hd with hold | ⟨rfl, rfl⟩
      · exact hw.idle i d hold hclosed
      · cases hclosed
    · exact (hw.served x hx).grown (Grown.append _ _)
    · -- Another entry that is locked keeps its closed actor, or none.
      obtain ⟨c, hc⟩ := Option.isSome_iff_exists.1 hk
      obtain ⟨hne, hold⟩ := IdMap.of_lookup_erase hc
      rcases IdMap.of_lookup_insert hi with ⟨rfl, -⟩ | ⟨-, hreg⟩
      · exact absurd rfl hne
      · obtain ⟨d, hd, -⟩ := hw.registered k i hreg
        exact isClosed_grown (Grown.append _ _) hd (hw.locked k (isLocked_of_lookup hold) i hreg)
    · exact hw.callers k s (IdMap.of_lookup_erase hk).2
    · refine hw.slots ht k ?_
      rcases hk with hreg | hopening
      · obtain ⟨i, hi⟩ := Option.isSome_iff_exists.1 hreg
        rcases IdMap.of_lookup_insert hi with ⟨rfl, -⟩ | ⟨-, hold⟩
        · exact Or.inr hlocked
        · exact Or.inl (by rw [hold]; rfl)
      · obtain ⟨c, hc⟩ := Option.isSome_iff_exists.1 hopening
        exact Or.inr (isLocked_of_lookup (IdMap.of_lookup_erase hc).2)
  · intro s hs
    exact hw.callers key s (hcaller.trans (congrArg some hs))

theorem Sound.getOrSpawn (hw : Sound tidy w) {key : String} {caller : Caller} {w' : Sessions}
    (hcaller : ∀ s, caller = .send s → ∃ x, w.sends[s]? = some x ∧ x.session = key)
    (h : w.getOrSpawn key caller = some w') : Sound tidy w' := by
  unfold Sessions.getOrSpawn at h
  split at h
  · cases h
  · split at h
    · rename_i i hi
      split at h
      · rename_i hclosed
        obtain rfl := Option.some.inj h
        exact hw.lockEntry (fun j hj => Option.some.inj (hi.symm.trans hj) ▸ hclosed) hcaller
      · obtain rfl := Option.some.inj h
        obtain ⟨c, hc, rfl⟩ := hw.registered key i hi
        exact hw.handOut hc hcaller
    · rename_i hnone
      obtain rfl := Option.some.inj h
      exact hw.lockEntry (fun j hj => nomatch hnone.symm.trans hj) hcaller

theorem Sound.unregister (hw : Sound tidy w) {key : String} (hclosed : (w.registry.lookup key).any w.isClosed = true) :
    Sound tidy { w with registry := w.registry.erase key } := by
  refine ⟨fun k i hk => ?_, fun i c hc hopen => ?_, hw.idle, hw.served, fun k hk i hi => ?_, hw.callers,
    fun ht k hk => ?_⟩
  · exact hw.registered k i (IdMap.of_lookup_erase hk).2
  · have hreg := hw.open_registered i c hc hopen
    have hopen' : w.isClosed i = false := (isClosed_eq hc).trans hopen
    have hne : c.key ≠ key := by
      rintro rfl
      rw [hreg, Option.any_some, hopen'] at hclosed
      cases hclosed
    exact (AList.lookup_erase_ne hne).trans hreg
  · exact hw.locked k hk i (IdMap.of_lookup_erase hi).2
  · refine hw.slots ht k (hk.imp_left fun hreg => ?_)
    obtain ⟨i, hi⟩ := Option.isSome_iff_exists.1 hreg
    rw [(IdMap.of_lookup_erase hi).2]
    rfl

/-- The slot of a session may go as long as it has no actor and gets none. -/
theorem Sound.forget (hw : Sound tidy w) {key : String}
    (hnone : tidy → w.registry.lookup key = none ∧ w.opening.lookup key = none) :
    Sound tidy { w with slots := w.slots.erase key } := by
  refine ⟨hw.registered, hw.open_registered, hw.idle, hw.served, hw.locked, hw.callers, fun ht k hk => ?_⟩
  have hne : k ≠ key := by
    rintro rfl
    obtain ⟨hreg, hopening⟩ := hnone ht
    rcases hk with hk | hk
    · rw [hreg] at hk
      cases hk
    · change (w.opening.lookup k).isSome = true at hk
      rw [hopening] at hk
      cases hk
  show (AList.lookup k (w.slots.erase key)).isSome
  rw [AList.lookup_erase_ne hne]
  exact hw.slots ht k hk

/-! ## Each step -/

theorem Sound.turn {i : Nat} {runId : String} {now : Nat} {w' : Sessions} (hw : Sound tidy w)
    (h : w.turn i runId now = some w') : Sound tidy w' := by
  unfold Sessions.turn at h
  split at h
  · cases h
  rename_i c hc
  split at h
  · cases h
  rename_i hopen
  rw [Bool.not_eq_true] at hopen
  split at h
  · cases h
  · rename_i s text sink rest hmail
    split at h
    · obtain rfl := Option.some.inj h
      refine (hw.handled hc hopen _ _).reply s fun d hd r hr => ?_
      obtain ⟨hlt, -⟩ := List.getElem?_eq_some_iff.1 hc
      obtain rfl := Option.some.inj ((List.getElem?_set_self hlt).symm.trans hd)
      obtain ⟨d, heq⟩ := w.observe_actor c (.submit runId text sink now)
      show r ∈ (w.observe c (.submit runId text sink now)).1.accepted
      rw [heq]
      exact mem_accepted_of_submitReply (a := { c.actor with diag := d }) rfl hr
    · cases h
  · rename_i e idleAfter rest hmail
    split at h
    · obtain rfl := Option.some.inj h
      exact ((hw.handled hc hopen _ _).evictions _).dropMails i rest
    · obtain rfl := Option.some.inj h
      exact (hw.handled hc hopen _ _).evictions _
  · obtain rfl := Option.some.inj h
    exact hw.handled hc hopen _ _

theorem Sound.send {s : Nat} {w' : Sessions} (hw : Sound tidy w) (h : w.send s = some w') : Sound tidy w' := by
  unfold Sessions.send at h
  split at h
  · cases h
  rename_i x hx
  have hserved := hw.served x (List.mem_of_getElem? hx)
  split at h
  · refine hw.getOrSpawn (fun t ht => ?_) h
    obtain rfl := Caller.send.inj ht
    exact ⟨x, hx, rfl⟩
  · rename_i i hphase hhandle
    obtain ⟨j, c, hj, hc, hkey, -⟩ := hserved.resolve_left (by rw [hphase]; simp)
    split at h
    · obtain rfl := Option.some.inj h
      exact hw.setSend hx rfl (Or.inr ⟨j, c, hj, hc, hkey, fun r hr => nomatch hr⟩)
    · split at h
      · obtain rfl := Option.some.inj h
        refine (hw.post _ _).setSend hx rfl ?_
        have hwaiting : Served w.spawned { x with phase := .waiting } :=
          Or.inr ⟨j, c, hj, hc, hkey, fun r hr => nomatch hr⟩
        exact hwaiting.grown (Grown.modify _ _ fun d => .mailbox d _)
      · cases h
  · rename_i runId i hphase hhandle
    obtain ⟨j, c, hj, hc, hkey, hgiven⟩ := hserved.resolve_left (by rw [hphase]; simp)
    split at h
    · obtain rfl := Option.some.inj h
      exact hw.setSend hx rfl (Or.inl rfl)
    · obtain rfl := Option.some.inj h
      refine hw.setSend hx rfl (Or.inr ⟨j, c, hj, hc, hkey, fun r hr => hgiven r ?_⟩)
      unfold givenRun
      rw [hphase]
      exact hr
  · cases h

theorem Sound.list {e : Nat} {key : String} {w' : Sessions} (hw : Sound tidy w) (h : w.list e key = some w') :
    Sound tidy w' := by
  unfold Sessions.list at h
  split at h
  · split at h
    · obtain rfl := Option.some.inj h
      exact hw.evictions _
    · cases h
  · cases h

theorem forgets_eq {e : Nat} {x : Eviction} {key : String} (hx : w.evictions[e]? = some x)
    (hphase : x.phase = .removed key) : w.forgets e = some key := by
  unfold forgets
  simp only [hx, hphase]

theorem Sound.evict {e : Nat} {w' : Sessions} (hw : Sound tidy w) (hclear : tidy → Unclaimed w (.evict e))
    (h : w.evict e = some w') : Sound tidy w' := by
  unfold Sessions.evict at h
  split at h
  · cases h
  rename_i x hx
  split at h
  · obtain rfl := Option.some.inj h
    exact hw.evictions _
  · split at h
    · cases h
    · split at h
      · obtain rfl := Option.some.inj h
        exact hw.evictions _
      · obtain rfl := Option.some.inj h
        exact (hw.post _ _).evictions _
  · cases h
  · split at h
    · split at h
      · cases h
      · split at h
        · rename_i hremove
          obtain rfl := Option.some.inj h
          exact (hw.unregister hremove).evictions _
        · obtain rfl := Option.some.inj h
          exact hw.evictions _
    · obtain rfl := Option.some.inj h
      exact hw.evictions _
  · rename_i key hphase
    obtain rfl := Option.some.inj h
    exact (hw.forget fun ht => hclear ht key (forgets_eq hx hphase)).evictions _

theorem sound_step {a : Act} {w' : Sessions} (hw : Sound tidy w) (hclear : tidy → Unclaimed w a)
    (h : step w a = some w') : Sound tidy w' := by
  cases a with
  | getOrSpawn key => exact hw.getOrSpawn (by simp) h
  | spawnActor key now =>
    simp only [step] at h
    split at h
    · rename_i caller hcaller
      obtain rfl := Option.some.inj h
      exact hw.spawnActor hcaller now
    · cases h
  | chatSend session text sink =>
    obtain rfl := Option.some.inj h
    refine hw.sends (.append _ _) fun x hx => ?_
    rcases List.mem_append.1 hx with hold | hnew
    · exact Or.inl hold
    · obtain rfl := List.mem_singleton.1 hnew
      exact Or.inr (Or.inl rfl)
  | send s => exact hw.send h
  | evictIdle idleAfter =>
    obtain rfl := Option.some.inj h
    exact hw.evictions _
  | list e key => exact hw.list h
  | evict e => exact hw.evict hclear h
  | timeout e =>
    simp only [step] at h
    split at h
    · split at h
      · obtain rfl := Option.some.inj h
        exact hw.evictions _
      · cases h
    · cases h
  | post i c =>
    simp only [step] at h
    split at h
    · obtain rfl := Option.some.inj h
      exact hw.post i _
    · cases h
  | task i c =>
    simp only [step] at h
    split at h
    · rename_i x hx
      split at h
      · rename_i hguard
        obtain rfl := Option.some.inj h
        rw [Bool.and_eq_true, Bool.not_eq_true'] at hguard
        exact hw.handled hx hguard.2 _ _
      · cases h
    · cases h
  | turn i runId now => exact hw.turn h

/-! ## A slot that is forgotten too early -/

/-- An actor is on its way into the registry, but the slot that was made for it is gone. -/
def Lost (k : String) (w : Sessions) : Prop := w.isLocked k = true ∧ w.slots.lookup k = none

theorem Lost.of_same {k : String} {w' : Sessions} (hlost : Lost k w) (hopening : w'.opening = w.opening)
    (hslots : w'.slots = w.slots) : Lost k w' := by
  unfold Lost isLocked
  rw [hopening, hslots]
  exact hlost

theorem Lost.ne {k key : String} (hlost : Lost k w) (hkey : ¬ w.isLocked key = true) : k ≠ key := by
  rintro rfl
  exact hkey hlost.1

theorem opening_handOut (w : Sessions) (i : Nat) (caller : Caller) : (w.handOut i caller).opening = w.opening := by
  cases caller <;> rfl

theorem slots_handOut (w : Sessions) (i : Nat) (caller : Caller) : (w.handOut i caller).slots = w.slots := by
  cases caller <;> rfl

theorem Lost.handled {k : String} (hlost : Lost k w) (i : Nat) (c : Spawned) (mailbox : List Mail) (cmd : Cmd) :
    Lost k (w.handled i c mailbox cmd) := by
  refine ⟨hlost.1, ?_⟩
  show (w.observe c cmd).2.lookup k = none
  unfold observe
  split
  · rename_i d hd
    have hne : k ≠ c.key := by
      rintro rfl
      rw [hlost.2] at hd
      cases hd
    exact (AList.lookup_insert_ne hne).trans hlost.2
  · exact hlost.2

theorem Lost.dropMails {k : String} (hlost : Lost k w) (i : Nat) (mails : List Mail) :
    Lost k (mails.foldl (Sessions.dropMail i) w) := by
  induction mails generalizing w with
  | nil => exact hlost
  | cons m mails ih =>
    refine ih ?_
    cases m <;> exact hlost.of_same rfl rfl

theorem Lost.turn {k : String} {i : Nat} {runId : String} {now : Nat} {w' : Sessions} (hlost : Lost k w)
    (h : w.turn i runId now = some w') : Lost k w' := by
  unfold Sessions.turn at h
  split at h
  · cases h
  rename_i c hc
  have hhandled (mailbox : List Mail) (cmd : Cmd) : Lost k (w.handled i c mailbox cmd) := hlost.handled i c mailbox cmd
  split at h
  · cases h
  split at h
  · cases h
  · rename_i s text sink rest hmail
    split at h
    · obtain rfl := Option.some.inj h
      exact (hhandled rest (.submit runId text sink now)).of_same rfl rfl
    · cases h
  · rename_i e idleAfter rest hmail
    split at h
    · obtain rfl := Option.some.inj h
      have hanswered : Lost k ((w.handled i c [] (.evictIfIdle idleAfter now)).answer e i true) :=
        (hhandled [] (.evictIfIdle idleAfter now)).of_same rfl rfl
      exact hanswered.dropMails i rest
    · obtain rfl := Option.some.inj h
      exact (hhandled rest (.evictIfIdle idleAfter now)).of_same rfl rfl
  · obtain rfl := Option.some.inj h
    exact hhandled _ _

theorem Lost.lockEntry {k key : String} (hlost : Lost k w) (hne : k ≠ key) (caller : Caller) :
    Lost k (w.lockEntry key caller) := by
  refine ⟨(isLocked_lockEntry ..).2 (Or.inr hlost.1), ?_⟩
  rw [← Option.not_isSome_iff_eq_none]
  intro hslot
  rcases (isSome_forSession ..).1 hslot with heq | hslot
  · exact hne heq
  · rw [hlost.2] at hslot
    cases hslot

theorem Lost.getOrSpawn {k key : String} {caller : Caller} {w' : Sessions} (hlost : Lost k w)
    (h : w.getOrSpawn key caller = some w') : Lost k w' := by
  unfold Sessions.getOrSpawn at h
  split at h
  · cases h
  rename_i hfree
  split at h
  · split at h
    · obtain rfl := Option.some.inj h
      exact hlost.lockEntry (hlost.ne hfree) caller
    · obtain rfl := Option.some.inj h
      exact hlost.of_same (opening_handOut ..) (slots_handOut ..)
  · obtain rfl := Option.some.inj h
    exact hlost.lockEntry (hlost.ne hfree) caller

theorem Lost.send {k : String} {s : Nat} {w' : Sessions} (hlost : Lost k w) (h : w.send s = some w') : Lost k w' := by
  unfold Sessions.send at h
  split at h
  · cases h
  split at h
  · exact hlost.getOrSpawn h
  · split at h
    · obtain rfl := Option.some.inj h
      exact hlost.of_same rfl rfl
    · split at h
      · obtain rfl := Option.some.inj h
        exact hlost.of_same rfl rfl
      · cases h
  · split at h <;>
    · obtain rfl := Option.some.inj h
      exact hlost.of_same rfl rfl
  · cases h

theorem Lost.evict {k : String} {e : Nat} {w' : Sessions} (hlost : Lost k w) (h : w.evict e = some w') :
    Lost k w' := by
  have hforget (key : String) : (w.slots.erase key).lookup k = none := by
    by_cases hk : k = key
    · subst hk
      exact AList.lookup_erase ..
    · rw [AList.lookup_erase_ne hk]
      exact hlost.2
  unfold Sessions.evict at h
  split at h
  · cases h
  split at h
  · obtain rfl := Option.some.inj h
    exact hlost.of_same rfl rfl
  · split at h
    · cases h
    · split at h <;>
      · obtain rfl := Option.some.inj h
        exact hlost.of_same rfl rfl
  · cases h
  · split at h
    · split at h
      · cases h
      · split at h <;>
        · obtain rfl := Option.some.inj h
          exact hlost.of_same rfl rfl
    · obtain rfl := Option.some.inj h
      exact hlost.of_same rfl rfl
  · obtain rfl := Option.some.inj h
    exact ⟨hlost.1, hforget _⟩

/-- The actor that was on its way is registered without its slot; another one changes nothing. -/
theorem Lost.spawnActor {k : String} (hlost : Lost k w) (key : String) (caller : Caller) (now : Nat) :
    Lost k (w.spawnActor key caller now) ∨
      ((w.spawnActor key caller now).registry.lookup k).isSome ∧ (w.spawnActor key caller now).slots.lookup k = none := by
  have hslots : (w.spawnActor key caller now).slots.lookup k = none := by
    rw [Sessions.spawnActor, slots_handOut]
    exact hlost.2
  by_cases hk : k = key
  · subst hk
    refine Or.inr ⟨?_, hslots⟩
    unfold Sessions.spawnActor
    cases caller <;> exact (congrArg Option.isSome (AList.lookup_insert _)).trans rfl
  · refine Or.inl ⟨?_, hslots⟩
    rw [isLocked, Sessions.spawnActor, opening_handOut, AList.lookup_erase_ne hk]
    exact hlost.1

/-- The slot does not come back before the actor is registered: whoever would make it waits for the entry. -/
theorem lost_step {k : String} {a : Act} {w' : Sessions} (hlost : Lost k w) (h : step w a = some w') :
    Lost k w' ∨ (w'.registry.lookup k).isSome ∧ w'.slots.lookup k = none := by
  cases a with
  | spawnActor key now =>
    simp only [step] at h
    split at h
    · rename_i caller hcaller
      obtain rfl := Option.some.inj h
      exact hlost.spawnActor key caller now
    · cases h
  | getOrSpawn key => exact Or.inl (hlost.getOrSpawn h)
  | chatSend session text sink =>
    obtain rfl := Option.some.inj h
    exact Or.inl (hlost.of_same rfl rfl)
  | send s => exact Or.inl (hlost.send h)
  | evictIdle idleAfter =>
    obtain rfl := Option.some.inj h
    exact Or.inl (hlost.of_same rfl rfl)
  | list e key =>
    simp only [step, Sessions.list] at h
    split at h
    · split at h
      · obtain rfl := Option.some.inj h
        exact Or.inl (hlost.of_same rfl rfl)
      · cases h
    · cases h
  | evict e => exact Or.inl (hlost.evict h)
  | timeout e =>
    simp only [step] at h
    split at h
    · split at h
      · obtain rfl := Option.some.inj h
        exact Or.inl (hlost.of_same rfl rfl)
      · cases h
    · cases h
  | post i c =>
    simp only [step] at h
    split at h
    · obtain rfl := Option.some.inj h
      exact Or.inl (hlost.of_same rfl rfl)
    · cases h
  | task i c =>
    simp only [step] at h
    split at h
    · split at h
      · obtain rfl := Option.some.inj h
        exact Or.inl (hlost.handled ..)
      · cases h
    · cases h
  | turn i runId now => exact Or.inl (hlost.turn h)

/-- No actor is on its way into the registry. -/
def Settled (w : Sessions) : Prop := w.opening.entries = []

/-- The actor is registered without its slot before the run has settled. -/
theorem not_healthy_of_lost {k : String} {as : List Act} {w' : Sessions} (hlost : Lost k w)
    (hrun : Steps.exec step w as = some w') (hend : Settled w') : ¬ Steps.AllStates step Healthy w as := by
  induction as generalizing w with
  | nil =>
    obtain rfl := Option.some.inj hrun
    have hlocked := hlost.1
    rw [isLocked, AList.lookup, hend] at hlocked
    cases hlocked
  | cons a as ih =>
    rintro ⟨-, hall⟩
    obtain ⟨u, hu, hrest⟩ := Steps.exec_cons_eq_some.1 hrun
    obtain ⟨hhealthy, hlater⟩ := hall u hu
    rcases lost_step hlost hu with hlost' | ⟨hreg, hslot⟩
    · exact ih hlost' hrest ⟨hhealthy, hlater⟩
    · obtain ⟨i, hi⟩ := Option.isSome_iff_exists.1 hreg
      have hthere := hhealthy.slots k i hi
      rw [hslot] at hthere
      cases hthere

/-- A step that forgets the slot of a new actor leaves a registered actor without one, at once or later. -/
theorem unhealthy_or_lost {a : Act} {w' : Sessions} (h : step w a = some w') (hclaimed : ¬ Unclaimed w a) :
    ¬ Healthy w' ∨ ∃ k, Lost k w' := by
  cases a with
  | evict e =>
    simp only [Unclaimed, not_forall] at hclaimed
    obtain ⟨k, hk, hclaimed⟩ := hclaimed
    simp only [Option.mem_def, forgets] at hk
    split at hk
    · rename_i x hx
      split at hk
      · rename_i key hphase
        obtain rfl := Option.some.inj hk
        simp only [step, Sessions.evict, hx, hphase] at h
        obtain rfl := Option.some.inj h
        by_cases hreg : w.registry.lookup key = none
        · refine Or.inr ⟨key, ?_, AList.lookup_erase ..⟩
          exact Option.isSome_iff_ne_none.2 fun hopening => hclaimed ⟨hreg, hopening⟩
        · refine Or.inl fun hhealthy => ?_
          obtain ⟨i, hi⟩ := Option.ne_none_iff_exists'.1 hreg
          have hslot := hhealthy.slots key i hi
          change (AList.lookup key (w.slots.erase key)).isSome = true at hslot
          rw [AList.lookup_erase] at hslot
          cases hslot
      · cases hk
    · cases hk
  | _ => exact absurd trivial hclaimed

theorem unclaimed_of_healthy {as : List Act} {w' : Sessions} (hall : Steps.AllStates step Healthy w as)
    (hrun : Steps.exec step w as = some w') (hend : Settled w') :
    Steps.AllSteps step (fun w a _ => Unclaimed w a) w as := by
  induction as generalizing w with
  | nil => trivial
  | cons a as ih =>
    obtain ⟨u, hu, hrest⟩ := Steps.exec_cons_eq_some.1 hrun
    obtain ⟨hhealthy, hlater⟩ := hall.2 u hu
    intro v hv
    obtain rfl := Option.some.inj (hu.symm.trans hv)
    refine ⟨?_, ih ⟨hhealthy, hlater⟩ hrest⟩
    by_contra hclaimed
    rcases unhealthy_or_lost hu hclaimed with hsick | ⟨k, hlost⟩
    · exact hsick hhealthy
    · exact not_healthy_of_lost hlost hrest hend ⟨hhealthy, hlater⟩

theorem sound_init (cfg : ActorCfg) (now : Nat) : Sound True (init cfg now) := by
  let empty : Sessions := { cfg, spawned := [], registry := ∅, opening := ∅, slots := ∅, sends := [], evictions := [] }
  have hempty : Sound True empty := by
    constructor <;> simp [empty, isLocked]
  have hlocked : Sound True (empty.lockEntry "main" .other) :=
    hempty.lockEntry (fun i hi => by simp [empty] at hi) (by simp)
  exact hlocked.spawnActor (AList.lookup_insert _) now

/-- Every registered actor has its slot, one actor of each session takes commands and no turn that was taken leaves
with an evicted actor, in every state of a run in which no slot is forgotten once its key has a new actor, in the
registry or on the way there; and in a run that ends with no actor on its way there, only so. -/
theorem healthy_iff (cfg : ActorCfg) (now : Nat) (as : List Act) :
    (Steps.AllSteps step (fun w a _ => Unclaimed w a) (init cfg now) as →
      Steps.AllStates step Healthy (init cfg now) as) ∧
    ∀ w, Steps.exec step (init cfg now) as = some w → Settled w → Steps.AllStates step Healthy (init cfg now) as →
      Steps.AllSteps step (fun w a _ => Unclaimed w a) (init cfg now) as := by
  constructor
  · intro hclear
    have hstep (w : Sessions) (a : Act) (w' : Sessions) (hw : Sound True w) (hclear : Unclaimed w a)
        (h : step w a = some w') : Sound True w' := sound_step hw (fun _ => hclear) h
    exact Steps.allStates_of_guarded hstep (fun _ hw => hw.healthy) (sound_init cfg now) hclear
  · intro w hrun hend hall
    exact unclaimed_of_healthy hall hrun hend

/-- The session `s` has been idle for long. -/
def evicted : List Act :=
  [.getOrSpawn "s", .spawnActor "s" 0, .evictIdle 30, .list 0 "s", .evict 0, .evict 0, .turn 1 "" 40, .evict 0]

/-- Its actor is gone, and its slot too, when it is spoken to again. -/
def respawned : List Act :=
  evicted ++ [.evict 0, .chatSend "s" "hi" .broadcast, .send 0, .spawnActor "s" 41, .send 0, .turn 2 "r" 42, .send 0]

theorem healthy_iff_respawned :
    (Steps.exec step (init testCfg 0) respawned).map (fun w => (w.opening.entries, w.sends.map givenRun)) =
        some ([], [some "r"]) ∧
      Steps.AllStates step Healthy (init testCfg 0) respawned ∧
      Steps.AllSteps step (fun w a _ => Unclaimed w a) (init testCfg 0) respawned := by
  have hend : (Steps.exec step (init testCfg 0) respawned).map (fun w => (w.opening.entries, w.sends.map givenRun)) =
      some ([], [some "r"]) := by decide
  obtain ⟨w, hrun, heq⟩ := Option.map_eq_some_iff.1 hend
  have hall := (healthy_iff testCfg 0 respawned).1 (by decide)
  exact ⟨hend, hall, (healthy_iff testCfg 0 respawned).2 w hrun (Prod.mk.inj heq).1 hall⟩

/-- It is spoken to again when its actor is off the registry and its slot is still there. -/
def spokenAgain : List Act := evicted ++ [.getOrSpawn "s", .spawnActor "s" 41, .evict 0]

/-- The new actor of the session has no slot. -/
theorem healthy_fails :
    ¬ ∀ (cfg : ActorCfg) (now : Nat) (as : List Act), Steps.AllStates step Healthy (init cfg now) as := by
  intro h
  have hend : (Steps.exec step (init testCfg 0) spokenAgain).map
      (fun w => (w.registry.lookup "s", w.isClosed 2, (w.slots.lookup "s").isSome)) = some (some 2, false, false) := by
    decide
  obtain ⟨w, hrun, heq⟩ := Option.map_eq_some_iff.1 hend
  simp only [Prod.mk.injEq] at heq
  have hhealthy := Steps.allStates_iff.1 (h testCfg 0 spokenAgain) spokenAgain w (List.prefix_refl _) hrun
  have hslot := hhealthy.slots "s" 2 heq.1
  rw [heq.2.2] at hslot
  cases hslot

end Sessions

end OhMyClaw
