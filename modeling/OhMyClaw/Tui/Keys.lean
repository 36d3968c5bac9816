import OhMyClaw.Server.Idem

/-!
# The keys of the terminal client

A terminal client numbers its requests and builds the idempotency key of a chat message from
its process id and that number.  The daemon outlives its clients, and the operating system
gives the id of a process that has ended to another one.

    own_run_iff        when every message becomes a run of its own
    own_run_fails      a client that is restarted under the same process id
-/

namespace OhMyClaw

namespace Tui

/-! ## A client -/

/-- The requests a terminal client makes. -/
inductive Method where
  | connect
  | chatSend (session text : String)
  | approvalReply (approvalId : String) (allow : Bool)
  | userReply (inputId : String) (text : Option String)
  | command (session text : String)
deriving DecidableEq, Repr

/-- What the requests are built from. -/
structure App where
  pid : Nat
  nextReq : Nat
  pendingApproval : Option String
  pendingInput : Option String
  currentSession : String
deriving DecidableEq, Repr

def uuidLike (pid n : Nat) : String := "tui-" ++ toString pid ++ "-" ++ toString n

def App.connect (pid : Nat) : App × Req Method :=
  ({ pid, nextReq := 1, pendingApproval := none, pendingInput := none, currentSession := "main" },
    { id := "connect-0", method := .connect, idempotencyKey := none })

/-- A numbered request without a key. -/
def App.request (app : App) (stem : String) (method : Method) : App × Req Method :=
  ({ app with nextReq := app.nextReq + 1 },
    { id := stem ++ toString app.nextReq, method, idempotencyKey := none })

def App.replyApproval (app : App) (allow : Bool) : Option (App × Req Method) :=
  match app.pendingApproval with
  | some id => some ({ app with pendingApproval := none }.request "appr-" (.approvalReply id allow))
  | none => none

def App.replyInput (app : App) (text : Option String) : Option (App × Req Method) :=
  match app.pendingInput with
  | some id => some ({ app with pendingInput := none }.request "uinput-" (.userReply id text))
  | none => none

def App.sendCommand (app : App) (text : String) : App × Req Method :=
  app.request "cmd-" (.command app.currentSession text)

/-- The key carries the number after this one: the counter has moved on when it is built. -/
def App.sendChat (app : App) (text : String) : App × Req Method :=
  let id := "req-" ++ toString app.nextReq
  let app := { app with nextReq := app.nextReq + 1 }
  (app, { id, method := .chatSend app.currentSession text
          idempotencyKey := some (uuidLike app.pid app.nextReq) })

/-- What the user does. -/
inductive Input where
  | chat (text : String)
  | command (text : String)
  | approve (allow : Bool)
  | answer (text : Option String)
deriving DecidableEq, Repr

def App.onInput (app : App) : Input → Option (App × Req Method)
  | .chat text => some (app.sendChat text)
  | .command text => some (app.sendCommand text)
  | .approve allow => app.replyApproval allow
  | .answer text => app.replyInput text

/-! ## Clients and the daemon -/

/-- A process, and what it has sent that the daemon has not read yet. -/
structure Proc where
  app : App
  alive : Bool
  wire : List (Req Method)
deriving DecidableEq, Repr

/-- The processes in the order they were started; a process' place is also the number of its
connection. -/
structure World (Ok Err : Type) where
  procs : List Proc
  daemon : Idem Method Ok Err
deriving DecidableEq

inductive Act (Ok Err : Type) where
  /-- A process is started; no live one has its id. -/
  | start (pid : Nat)
  | input (c : Nat) (i : Input)
  /-- A client shows what the daemon sent it. -/
  | shown (c : Nat) (session : String) (approval userInput : Option String)
  | quit (c : Nat)
  /-- The daemon reads the next request of a connection. -/
  | read (c : Nat)
  /-- The daemon serves what it has read. -/
  | serve (a : Idem.Act Method Ok Err)
deriving DecidableEq, Repr

variable {Ok Err : Type}

namespace World

def new : World Ok Err := { procs := [], daemon := .new }

def setProc (w : World Ok Err) (c : Nat) (p : Proc) : World Ok Err :=
  { w with procs := w.procs.set c p }

/-- A live process. -/
def proc (w : World Ok Err) (c : Nat) : Option Proc := (w.procs[c]?).filter (·.alive)

def step (w : World Ok Err) (a : Act Ok Err) : Option (World Ok Err) :=
  match a with
  | .start pid =>
    if w.procs.all fun p => !p.alive || p.app.pid ≠ pid then
      let (app, req) := App.connect pid
      some { w with procs := w.procs ++ [{ app, alive := true, wire := [req] }] }
    else none
  | .input c i =>
    match w.proc c with
    | some p =>
      match p.app.onInput i with
      | some (app, req) => some (w.setProc c { p with app, wire := p.wire ++ [req] })
      | none => none
    | none => none
  | .shown c session approval userInput =>
    match w.proc c with
    | some p =>
      let app := { p.app with
        currentSession := session, pendingApproval := approval, pendingInput := userInput }
      some (w.setProc c { p with app })
    | none => none
  | .quit c =>
    match w.proc c with
    | some p => some (w.setProc c { p with alive := false })
    | none => none
  | .read c =>
    match w.procs[c]? with
    | some p =>
      match p.wire with
      | req :: wire =>
        match Idem.step w.daemon (.arrive c req) with
        | some daemon => some { w.setProc c { p with wire } with daemon }
        | none => none
      | [] => none
    | none => none
  | .serve (.arrive _ _) => none
  | .serve a =>
    match Idem.step w.daemon a with
    | some daemon => some { w with daemon }
    | none => none

/-! ## Messages and their keys -/

/-- The key of a request of this connection. -/
def keyAt (c : Nat) (r : Serving Method Ok Err) : Option String :=
  if r.conn = c then r.req.idempotencyKey else none

/-- The keys a process has sent, in the order of its messages. -/
def sentKeys (w : World Ok Err) (c : Nat) : List String :=
  w.daemon.reqs.filterMap (keyAt c) ++
    ((w.procs[c]?).elim [] (·.wire)).filterMap (·.idempotencyKey)

/-- A message of this process is on its way to the cache. -/
def waits (w : World Ok Err) (c : Nat) (key : String) : Prop :=
  (∃ p, w.procs[c]? = some p ∧ ∃ req ∈ p.wire, req.idempotencyKey = some key) ∨
    ∃ (i : Nat) (r : Serving Method Ok Err), w.daemon.reqs[i]? = some r ∧ r.phase = .received ∧ keyAt c r = some key

/-- The cache holds a result under this key and will answer with it. -/
def cached (w : World Ok Err) (key : String) : Prop :=
  ∃ e, w.daemon.idem.lookup key = some e ∧ Idem.isFresh w.daemon.now e = true

/-- No message has the key of a result in the cache when it comes to be looked up, and every
message that has been looked up went on to become a run. -/
structure OwnRun (w : World Ok Err) : Prop where
  distinct : ∀ c key, w.waits c key → ¬ w.cached key
  executed : ∀ i key, w.daemon.keyOf i = some key → w.daemon.phaseOf i ≠ some .received →
    i ∈ w.daemon.executed

/-- The step lets a message meet the result of a message with the same number, sent by another
process with the same id: the message is sent while the result is there, or the result comes in
while the message waits. -/
def Reused (w : World Ok Err) : Act Ok Err → Prop
  | .input c (.chat _) =>
    ∃ p c' p', w.proc c = some p ∧ w.procs[c']? = some p' ∧ p'.alive = false ∧ p'.app.pid = p.app.pid ∧
      uuidLike p'.app.pid (p.app.nextReq + 1) ∈ w.sentKeys c' ∧
      w.cached (uuidLike p'.app.pid (p.app.nextReq + 1))
  | .serve (.answer i) =>
    ∃ (r : Serving Method Ok Err) (ok : Ok) (p : Proc) (c' : Nat) (p' : Proc) (n : Nat), w.daemon.reqs[i]? = some r ∧ r.phase = .handled (.ok ok) ∧
      w.procs[r.conn]? = some p ∧ r.req.idempotencyKey = some (uuidLike p.app.pid n) ∧
      c' ≠ r.conn ∧ w.procs[c']? = some p' ∧ p'.app.pid = p.app.pid ∧ w.waits c' (uuidLike p'.app.pid n)
  | _ => False

/-! ## Keys tell messages apart -/

theorem not_mem_dash_toString (n : Nat) : '-' ∉ (toString n).toList := by
  intro h
  rw [Nat.toString_eq_repr, Nat.toList_repr] at h
  have hdigit := Nat.isDigit_of_mem_toDigits (by omega) (by omega) h
  revert hdigit
  decide

theorem toString_injective {m n : Nat} (h : (toString m).toList = (toString n).toList) : m = n := by
  rw [Nat.toString_eq_repr, Nat.toString_eq_repr, Nat.toList_repr, Nat.toList_repr] at h
  have hread := congrArg (fun ds => Nat.ofDigitChars 10 ds 0) h
  simpa only [Nat.ofDigitChars_ten_toDigits] using hread

/-- Two texts without the mark, put before it, are told apart. -/
theorem append_mark_inj {α : Type*} {x : α} {as bs cs ds : List α} (ha : x ∉ as) (hb : x ∉ bs)
    (h : as ++ x :: cs = bs ++ x :: ds) : as = bs ∧ cs = ds := by
  induction as generalizing bs with
  | nil =>
    cases bs with
    | nil => exact ⟨rfl, (List.cons.inj h).2⟩
    | cons b bs => exact absurd (List.cons.inj h).1 fun hx => hb (hx ▸ List.mem_cons_self)
  | cons a as ih =>
    cases bs with
    | nil => exact absurd (List.cons.inj h).1 fun hx => ha (hx ▸ List.mem_cons_self)
    | cons b bs =>
      obtain ⟨rfl, hrest⟩ := List.cons.inj h
      obtain ⟨rfl, hcs⟩ := ih (fun hx => ha (List.mem_cons_of_mem _ hx))
        (fun hx => hb (List.mem_cons_of_mem _ hx)) hrest
      exact ⟨rfl, hcs⟩

/-- A key says which process id and which number it was built from. -/
theorem uuidLike_inj {pid n pid' n' : Nat} (h : uuidLike pid n = uuidLike pid' n') : pid = pid' ∧ n = n' := by
  have hlist := congrArg String.toList h
  simp only [uuidLike, String.toList_append, List.append_assoc] at hlist
  have hcut := append_mark_inj (not_mem_dash_toString pid) (not_mem_dash_toString pid')
    (List.append_cancel_left hlist)
  exact ⟨toString_injective hcut.1, toString_injective hcut.2⟩

/-! ## What holds of every world -/

theorem filterMap_modify {α β : Type*} {g : α → Option β} {f : α → α} (h : ∀ x, g (f x) = g x) (xs : List α)
    (i : Nat) : (xs.modify i f).filterMap g = xs.filterMap g := by
  induction xs generalizing i with
  | nil => simp
  | cons x xs ih =>
    cases i with
    | zero => simp only [List.modify_zero_cons, List.filterMap_cons, h]
    | succ i => simp only [List.modify_succ_cons, List.filterMap_cons, ih]

theorem proc_eq_some {w : World Ok Err} {c : Nat} {p : Proc} :
    w.proc c = some p ↔ w.procs[c]? = some p ∧ p.alive = true := Option.filter_eq_some_iff

/-- What a process has sent carries its id and rising numbers up to its counter. -/
def Numbered (app : App) (keys : List String) : Prop :=
  ∃ ns : List Nat, ns.Pairwise (· < ·) ∧ (∀ n ∈ ns, n ≤ app.nextReq) ∧ keys = ns.map (uuidLike app.pid)

theorem Numbered.mem {app : App} {keys : List String} (h : Numbered app keys) {key : String} (hkey : key ∈ keys) :
    ∃ n, n ≤ app.nextReq ∧ key = uuidLike app.pid n := by
  obtain ⟨ns, -, hle, rfl⟩ := h
  obtain ⟨n, hn, rfl⟩ := List.mem_map.1 hkey
  exact ⟨n, hle n hn, rfl⟩

theorem Numbered.nodup {app : App} {keys : List String} (h : Numbered app keys) : keys.Nodup := by
  obtain ⟨ns, hrise, -, rfl⟩ := h
  exact (hrise.imp Nat.ne_of_lt).map _ fun m n hne heq => hne (uuidLike_inj heq).2

/-- The counter moves on and nothing is sent under a key. -/
theorem Numbered.mono {app app' : App} {keys : List String} (h : Numbered app keys) (hpid : app'.pid = app.pid)
    (hle : app.nextReq ≤ app'.nextReq) : Numbered app' keys := by
  obtain ⟨ns, hrise, hns, rfl⟩ := h
  exact ⟨ns, hrise, fun n hn => Nat.le_trans (hns n hn) hle, by rw [hpid]⟩

theorem Numbered.snoc {app app' : App} {keys : List String} (h : Numbered app keys) (hpid : app'.pid = app.pid)
    (hle : app.nextReq < app'.nextReq) : Numbered app' (keys ++ [uuidLike app'.pid app'.nextReq]) := by
  obtain ⟨ns, hrise, hns, rfl⟩ := h
  refine ⟨ns ++ [app'.nextReq], ?_, ?_, ?_⟩
  · rw [List.pairwise_append]
    refine ⟨hrise, List.pairwise_singleton _ _, fun n hn m hm => ?_⟩
    obtain rfl := List.mem_singleton.1 hm
    exact Nat.lt_of_le_of_lt (hns n hn) hle
  · intro n hn
    rcases List.mem_append.1 hn with hn | hn
    · exact Nat.le_trans (hns n hn) (Nat.le_of_lt hle)
    · exact Nat.le_of_eq (List.mem_singleton.1 hn)
  · rw [List.map_append, hpid]
    rfl

structure Inv (w : World Ok Err) : Prop where
  daemon : w.daemon.Inv
  pids : ∀ c c' p p', w.proc c = some p → w.proc c' = some p' → p.app.pid = p'.app.pid → c = c'
  numbered : ∀ c p, w.procs[c]? = some p → Numbered p.app (w.sentKeys c)
  conns : ∀ r ∈ w.daemon.reqs, r.conn < w.procs.length

/-- Only a chat message carries a key, built when the counter has moved on. -/
def keyFor (app : App) : Input → Option String
  | .chat _ => some (uuidLike app.pid app.nextReq)
  | _ => none

theorem onInput_spec {app app' : App} {i : Input} {req : Req Method} (h : app.onInput i = some (app', req)) :
    app'.pid = app.pid ∧ app'.nextReq = app.nextReq + 1 ∧ req.idempotencyKey = keyFor app' i := by
  cases i with
  | chat text =>
    obtain ⟨rfl, rfl⟩ := Prod.mk.inj (Option.some.inj h)
    exact ⟨rfl, rfl, rfl⟩
  | command text =>
    obtain ⟨rfl, rfl⟩ := Prod.mk.inj (Option.some.inj h)
    exact ⟨rfl, rfl, rfl⟩
  | approve allow =>
    simp only [App.onInput, App.replyApproval] at h
    split at h
    · obtain ⟨rfl, rfl⟩ := Prod.mk.inj (Option.some.inj h)
      exact ⟨rfl, rfl, rfl⟩
    · simp at h
  | answer text =>
    simp only [App.onInput, App.replyInput] at h
    split at h
    · obtain ⟨rfl, rfl⟩ := Prod.mk.inj (Option.some.inj h)
      exact ⟨rfl, rfl, rfl⟩
    · simp at h

/-! ## What a step can be -/

/-- All a step can do. -/
inductive Change (w : World Ok Err) : Act Ok Err → World Ok Err → Prop
  | start {pid} (hfree : ∀ c p, w.proc c = some p → p.app.pid ≠ pid) :
      Change w (.start pid)
        { w with procs := w.procs ++ [{ app := (App.connect pid).1, alive := true, wire := [(App.connect pid).2] }] }
  | input {c i p app req} (hp : w.proc c = some p) (hi : p.app.onInput i = some (app, req)) :
      Change w (.input c i) (w.setProc c { p with app, wire := p.wire ++ [req] })
  | shown {c session approval userInput p app} (hp : w.proc c = some p) (hpid : app.pid = p.app.pid)
      (hnext : app.nextReq = p.app.nextReq) :
      Change w (.shown c session approval userInput) (w.setProc c { p with app })
  | quit {c p} (hp : w.proc c = some p) : Change w (.quit c) (w.setProc c { p with alive := false })
  | read {c p req wire daemon} (hp : w.procs[c]? = some p) (hwire : p.wire = req :: wire)
      (hdaemon : Idem.step w.daemon (.arrive c req) = some daemon) :
      Change w (.read c) { w.setProc c { p with wire } with daemon }
  | serve {a daemon} (ha : ∀ conn req, a ≠ .arrive conn req) (hdaemon : Idem.step w.daemon a = some daemon) :
      Change w (.serve a) { w with daemon }

theorem change_of_step {w t : World Ok Err} {a : Act Ok Err} (h : step w a = some t) : Change w a t := by
  cases a with
  | start pid =>
    simp only [step] at h
    split at h
    · next hfree =>
      obtain rfl := Option.some.inj h
      refine .start fun c p hp => ?_
      obtain ⟨hc, halive⟩ := proc_eq_some.1 hp
      have := List.all_eq_true.1 hfree p (List.mem_of_getElem? hc)
      simpa [halive] using this
    · simp at h
  | input c i =>
    simp only [step] at h
    split at h
    · next p hp =>
      split at h
      · next app req hi =>
        obtain rfl := Option.some.inj h
        exact .input hp hi
      · simp at h
    · simp at h
  | shown c session approval userInput =>
    simp only [step] at h
    split at h
    · next p hp =>
      obtain rfl := Option.some.inj h
      exact .shown hp rfl rfl
    · simp at h
  | quit c =>
    simp only [step] at h
    split at h
    · next p hp =>
      obtain rfl := Option.some.inj h
      exact .quit hp
    · simp at h
  | read c =>
    simp only [step] at h
    split at h
    · next p hp =>
      split at h
      · next req wire hwire =>
        split at h
        · next daemon hdaemon =>
          obtain rfl := Option.some.inj h
          exact .read hp hwire hdaemon
        · simp at h
      · simp at h
    · simp at h
  | serve a =>
    by_cases ha : ∃ conn req, a = .arrive conn req
    · obtain ⟨conn, req, rfl⟩ := ha
      simp [step] at h
    · have hne : ∀ conn req, a ≠ .arrive conn req := fun conn req h => ha ⟨conn, req, h⟩
      have hdaemon : ∃ daemon, Idem.step w.daemon a = some daemon ∧ t = { w with daemon } := by
        cases a with
        | arrive conn req => exact absurd rfl (hne conn req)
        | _ =>
          simp only [step] at h
          split at h
          · next daemon hdaemon => exact ⟨daemon, hdaemon, (Option.some.inj h).symm⟩
          · simp at h
      obtain ⟨daemon, hd, rfl⟩ := hdaemon
      exact .serve hne hd

/-! ## The invariant -/

section Invariant

variable {w : World Ok Err} {c c' : Nat} {p p' : Proc}

theorem getElem?_setProc (hp : w.procs[c]? = some p) :
    (w.setProc c p').procs[c']? = if c = c' then some p' else w.procs[c']? := by
  have hlt := (List.getElem?_eq_some_iff.1 hp).1
  unfold setProc
  rw [List.getElem?_set]
  simp [hlt]

theorem sentKeys_setProc (hp : w.procs[c]? = some p) :
    (w.setProc c p').sentKeys c' = if c = c' then
      w.daemon.reqs.filterMap (keyAt c) ++ p'.wire.filterMap (·.idempotencyKey) else w.sentKeys c' := by
  unfold sentKeys
  rw [getElem?_setProc hp]
  by_cases h : c = c'
  · subst h
    simp [setProc]
  · simp [h, setProc]

theorem sentKeys_eq (hp : w.procs[c]? = some p) :
    w.sentKeys c = w.daemon.reqs.filterMap (keyAt c) ++ p.wire.filterMap (·.idempotencyKey) := by
  unfold sentKeys
  rw [hp]
  rfl

theorem Inv.keys (h : w.Inv) (hp : w.procs[c]? = some p) :
    Numbered p.app (w.daemon.reqs.filterMap (keyAt c) ++ p.wire.filterMap (·.idempotencyKey)) := by
  have := h.numbered c p hp
  rwa [sentKeys_eq hp] at this

/-- Live processes keep different ids. -/
theorem Inv.pids_setProc (h : w.Inv) (p' : Proc) (hp : w.procs[c]? = some p) (hpid : p'.app.pid = p.app.pid)
    (halive : p'.alive = true → p.alive = true) (c₁ c₂ : Nat) (p₁ p₂ : Proc)
    (h₁ : (w.setProc c p').proc c₁ = some p₁) (h₂ : (w.setProc c p').proc c₂ = some p₂)
    (heq : p₁.app.pid = p₂.app.pid) : c₁ = c₂ := by
  have hproc (c₁ : Nat) (p₁ : Proc) (h₁ : (w.setProc c p').proc c₁ = some p₁) :
      ∃ q, w.proc c₁ = some q ∧ q.app.pid = p₁.app.pid := by
    obtain ⟨hc₁, halive₁⟩ := proc_eq_some.1 h₁
    rw [getElem?_setProc hp] at hc₁
    split at hc₁
    · next hcc =>
      obtain rfl := Option.some.inj hc₁
      exact ⟨p, proc_eq_some.2 ⟨hcc ▸ hp, halive halive₁⟩, hpid.symm⟩
    · exact ⟨p₁, proc_eq_some.2 ⟨hc₁, halive₁⟩, rfl⟩
  obtain ⟨q₁, hq₁, hpid₁⟩ := hproc c₁ p₁ h₁
  obtain ⟨q₂, hq₂, hpid₂⟩ := hproc c₂ p₂ h₂
  exact h.pids c₁ c₂ q₁ q₂ hq₁ hq₂ (hpid₁.trans (heq.trans hpid₂.symm))

/-- A process goes on, under its id. -/
theorem Inv.setProc (h : w.Inv) (hp : w.procs[c]? = some p) (hpid : p'.app.pid = p.app.pid)
    (halive : p'.alive = true → p.alive = true)
    (hnumbered : Numbered p'.app (w.daemon.reqs.filterMap (keyAt c) ++ p'.wire.filterMap (·.idempotencyKey))) :
    (w.setProc c p').Inv := by
  refine ⟨h.daemon, h.pids_setProc _ hp hpid halive, ?_, ?_⟩
  · intro c₁ p₁ h₁
    rw [getElem?_setProc hp] at h₁
    rw [sentKeys_setProc hp]
    split at h₁
    · next hcc =>
      obtain rfl := Option.some.inj h₁
      rw [if_pos hcc]
      exact hnumbered
    · next hcc =>
      rw [if_neg hcc]
      exact h.numbered c₁ p₁ h₁
  · intro r hr
    show r.conn < (w.procs.set c p').length
    rw [List.length_set]
    exact h.conns r hr

/-- Serving leaves what has been sent as it is. -/
theorem reqs_of_serve {d d' : Idem Method Ok Err} {a : Idem.Act Method Ok Err}
    (ha : ∀ conn req, a ≠ .arrive conn req) (hstep : Idem.step d a = some d') :
    (∀ c, d'.reqs.filterMap (keyAt c) = d.reqs.filterMap (keyAt c)) ∧
      ∀ r ∈ d'.reqs, ∃ r' ∈ d.reqs, r'.conn = r.conn := by
  have hset (e : Idem Method Ok Err) (i : Nat) (q : ReqPhase Ok Err) :
      (∀ c, (e.setPhase i q).reqs.filterMap (keyAt c) = e.reqs.filterMap (keyAt c)) ∧
        ∀ r ∈ (e.setPhase i q).reqs, ∃ r' ∈ e.reqs, r'.conn = r.conn := by
    refine ⟨fun c => filterMap_modify (f := fun r => { r with phase := q }) (fun _ => rfl) e.reqs i, fun r hr => ?_⟩
    obtain ⟨j, hj⟩ := List.mem_iff_getElem?.1 hr
    unfold Idem.setPhase at hj
    rw [List.getElem?_modify] at hj
    obtain ⟨r', hr', rfl⟩ := Option.map_eq_some_iff.1 hj
    refine ⟨r', List.mem_of_getElem? hr', ?_⟩
    split <;> rfl
  cases Idem.change_of_step hstep with
  | @arrive conn req => exact absurd rfl (ha conn req)
  | hit hphase hkey hlook hfresh => exact hset d _ _
  | miss hphase hp hcold => exact hset d _ _
  | remove hphase => exact hset _ _ _
  | handled hphase => exact hset d _ _
  | @answer i r hphase =>
    have hreqs : (d.storeResult (d.keyOf i) r).reqs = d.reqs := by
      unfold Idem.storeResult
      split <;> rfl
    have := hset (d.storeResult (d.keyOf i) r) i (.answered r)
    rwa [hreqs] at this
  | advance => exact ⟨fun _ => rfl, fun r hr => ⟨r, hr, rfl⟩⟩
  | gcTick => exact ⟨fun _ => rfl, fun r hr => ⟨r, hr, rfl⟩⟩

theorem Inv.start {pid : Nat} (h : w.Inv) (hfree : ∀ c p, w.proc c = some p → p.app.pid ≠ pid) :
    Inv { w with
      procs := w.procs ++ [{ app := (App.connect pid).1, alive := true, wire := [(App.connect pid).2] }] } := by
  generalize hfresh : ({ app := (App.connect pid).1, alive := true, wire := [(App.connect pid).2] } : Proc) = fresh
  have hpid : fresh.app.pid = pid := by
    rw [← hfresh]
    rfl
  have hget (c : Nat) (p : Proc) (hp : (w.procs ++ [fresh])[c]? = some p) :
      w.procs[c]? = some p ∨ c = w.procs.length ∧ p = fresh := by
    by_cases hlt : c < w.procs.length
    · rw [List.getElem?_append_left hlt] at hp
      exact Or.inl hp
    · rw [List.getElem?_append_right (by omega), List.getElem?_singleton] at hp
      split at hp
      · exact Or.inr ⟨by omega, (Option.some.inj hp).symm⟩
      · simp at hp
  have hproc (c : Nat) (p : Proc) (hp : World.proc { w with procs := w.procs ++ [fresh] } c = some p) :
      w.proc c = some p ∨ c = w.procs.length ∧ p.app.pid = pid := by
    obtain ⟨hc, halive⟩ := proc_eq_some.1 hp
    rcases hget c p hc with hc | ⟨hlast, rfl⟩
    · exact Or.inl (proc_eq_some.2 ⟨hc, halive⟩)
    · exact Or.inr ⟨hlast, hpid⟩
  refine ⟨h.daemon, ?_, ?_, ?_⟩
  · intro c₁ c₂ p₁ p₂ h₁ h₂ heq
    rcases hproc c₁ p₁ h₁ with h₁ | ⟨h₁, hpid₁⟩ <;> rcases hproc c₂ p₂ h₂ with h₂ | ⟨h₂, hpid₂⟩
    · exact h.pids c₁ c₂ p₁ p₂ h₁ h₂ heq
    · exact absurd (heq.trans hpid₂) (hfree c₁ p₁ h₁)
    · exact absurd (heq.symm.trans hpid₁) (hfree c₂ p₂ h₂)
    · exact h₁.trans h₂.symm
  · intro c p hp
    rcases hget c p hp with hc | ⟨rfl, rfl⟩
    · rw [sentKeys_eq hp]
      have := h.numbered c p hc
      rwa [sentKeys_eq hc] at this
    · -- The new connection has sent its greeting, which has no key.
      have hnone : w.daemon.reqs.filterMap (keyAt w.procs.length) = [] := by
        rw [List.filterMap_eq_nil_iff]
        intro r hr
        exact if_neg (Nat.ne_of_lt (h.conns r hr))
      have hwire : p.wire.filterMap (·.idempotencyKey) = [] := by
        rw [← hfresh]
        rfl
      refine ⟨[], .nil, by simp, ?_⟩
      rw [sentKeys_eq hp, hwire]
      simpa using hnone
  · intro r hr
    show r.conn < (w.procs ++ [fresh]).length
    have := h.conns r hr
    rw [List.length_append]
    omega

/-- What is read moves from the wire to the daemon. -/
theorem Inv.read {req : Req Method} {wire : List (Req Method)} {daemon : Idem Method Ok Err} (h : w.Inv)
    (hp : w.procs[c]? = some p) (hwire : p.wire = req :: wire)
    (hdaemon : Idem.step w.daemon (.arrive c req) = some daemon) :
    Inv { w.setProc c { p with wire } with daemon } := by
  obtain rfl : daemon = { w.daemon with reqs := w.daemon.reqs ++ [{ conn := c, req, phase := .received }] } := by
    cases Idem.change_of_step hdaemon
    rfl
  have hkeys (c' : Nat) : World.sentKeys { w.setProc c { p with wire } with daemon :=
      { w.daemon with reqs := w.daemon.reqs ++ [{ conn := c, req, phase := .received }] } } c' = w.sentKeys c' := by
    unfold sentKeys
    show _ ++ (((w.setProc c { p with wire }).procs[c']?).elim [] _).filterMap _ = _
    rw [getElem?_setProc hp, List.filterMap_append]
    by_cases hcc : c = c'
    · subst hcc
      rw [if_pos rfl, hp]
      simp only [Option.elim_some, hwire, List.filterMap_cons, List.filterMap_nil, keyAt, if_true]
      cases req.idempotencyKey <;> simp
    · rw [if_neg hcc]
      simp [keyAt, hcc]
  have hpids := h.pids_setProc { p with wire } hp rfl id
  refine ⟨Idem.inv_step h.daemon hdaemon, hpids, ?_, ?_⟩
  · intro c₁ p₁ h₁
    change (w.setProc c { p with wire }).procs[c₁]? = some p₁ at h₁
    rw [hkeys]
    rw [getElem?_setProc hp] at h₁
    split at h₁
    · next hcc =>
      obtain rfl := Option.some.inj h₁
      exact hcc ▸ h.numbered c p hp
    · exact h.numbered c₁ p₁ h₁
  · intro r hr
    show r.conn < (w.procs.set c { p with wire }).length
    rw [List.length_set]
    rcases List.mem_append.1 hr with hr | hr
    · exact h.conns r hr
    · rw [List.mem_singleton.1 hr]
      exact (List.getElem?_eq_some_iff.1 hp).1

theorem inv_new : (new : World Ok Err).Inv where
  daemon := Idem.inv_new
  pids c c' p p' h := by simp [new, proc] at h
  numbered c p h := by simp [new] at h
  conns r h := by simp [new, Idem.new] at h

theorem inv_step {t : World Ok Err} {a : Act Ok Err} (h : w.Inv) (hstep : step w a = some t) : t.Inv := by
  cases change_of_step hstep with
  | start hfree => exact h.start hfree
  | @input c i p app req hp hi =>
    obtain ⟨hpid, hnext, hkey⟩ := onInput_spec hi
    have hc := (proc_eq_some.1 hp).1
    refine h.setProc hc hpid id ?_
    show Numbered app (_ ++ (p.wire ++ [req]).filterMap (·.idempotencyKey))
    rw [List.filterMap_append, ← List.append_assoc]
    cases i with
    | chat text =>
      have hone : [req].filterMap (·.idempotencyKey) = [uuidLike app.pid app.nextReq] := by simp [hkey, keyFor]
      rw [hone]
      exact (h.keys hc).snoc hpid (by omega)
    | _ =>
      have hone : [req].filterMap (·.idempotencyKey) = [] := by simp [hkey, keyFor]
      rw [hone, List.append_nil]
      exact (h.keys hc).mono hpid (by omega)
  | @shown c session approval userInput p app hp hpid hnext =>
    have hc := (proc_eq_some.1 hp).1
    exact h.setProc hc hpid id ((h.keys hc).mono hpid (Nat.le_of_eq hnext.symm))
  | @quit c p hp =>
    have hc := (proc_eq_some.1 hp).1
    have hkeys := h.keys hc
    exact h.setProc hc rfl (by simp) hkeys
  | read hp hwire hdaemon => exact h.read hp hwire hdaemon
  | @serve a daemon ha hdaemon =>
    obtain ⟨hkeys, hconns⟩ := reqs_of_serve ha hdaemon
    refine ⟨Idem.inv_step h.daemon hdaemon, h.pids, ?_, ?_⟩
    · intro c p hp
      rw [sentKeys_eq hp, hkeys c]
      exact h.keys hp
    · intro r hr
      obtain ⟨r', hr', hconn⟩ := hconns r hr
      exact hconn ▸ h.conns r' hr'

end Invariant

/-! ## Who meets whose result -/

section Meeting

variable {w : World Ok Err} {c : Nat} {key : String}

theorem eq_of_filterMap_nodup {α β : Type*} {f : α → Option β} {xs : List α} {i j : Nat} {x y : α} {b : β}
    (h : (xs.filterMap f).Nodup) (hi : xs[i]? = some x) (hj : xs[j]? = some y) (hx : f x = some b)
    (hy : f y = some b) : i = j := by
  rw [List.Nodup, List.pairwise_filterMap, List.pairwise_iff_getElem] at h
  obtain ⟨hli, rfl⟩ := List.getElem?_eq_some_iff.1 hi
  obtain ⟨hlj, rfl⟩ := List.getElem?_eq_some_iff.1 hj
  by_contra hne
  rcases Nat.lt_or_gt_of_ne hne with hlt | hlt
  · exact h i j hli hlj hlt b hx b hy rfl
  · exact h j i hlj hli hlt b hy b hx rfl

theorem keyAt_eq_some {r : Serving Method Ok Err} :
    keyAt c r = some key ↔ r.conn = c ∧ r.req.idempotencyKey = some key := by
  unfold keyAt
  split
  · next h => simp [h]
  · next h => simp [h]

theorem Inv.numbered_of_mem (h : w.Inv) {r : Serving Method Ok Err} (hr : r ∈ w.daemon.reqs)
    (hkey : r.req.idempotencyKey = some key) : ∃ p n, w.procs[r.conn]? = some p ∧ n ≤ p.app.nextReq ∧
      key = uuidLike p.app.pid n ∧ key ∈ w.sentKeys r.conn := by
  have hp := List.getElem?_eq_getElem (h.conns r hr)
  have hmem : key ∈ w.sentKeys r.conn := by
    refine List.mem_append_left _ (List.mem_filterMap.2 ⟨r, hr, ?_⟩)
    exact keyAt_eq_some.2 ⟨rfl, hkey⟩
  obtain ⟨n, hn, heq⟩ := (h.numbered _ _ hp).mem hmem
  exact ⟨_, n, hp, hn, heq, hmem⟩

/-- A cached result is that of a message some process has sent. -/
theorem Inv.numbered_of_cached (h : w.Inv) (hc : w.cached key) : ∃ c p n, w.procs[c]? = some p ∧
    n ≤ p.app.nextReq ∧ key = uuidLike p.app.pid n ∧ key ∈ w.sentKeys c := by
  obtain ⟨e, he, -⟩ := hc
  obtain ⟨i, -, hkey, -⟩ := h.daemon.cached key e he
  obtain ⟨r, hr, hkey⟩ := Option.bind_eq_some_iff.1 hkey
  obtain ⟨p, n, hp⟩ := h.numbered_of_mem (List.mem_of_getElem? hr) hkey
  exact ⟨r.conn, p, n, hp⟩

theorem Inv.numbered_of_waits (h : w.Inv) (hw : w.waits c key) :
    ∃ p n, w.procs[c]? = some p ∧ key = uuidLike p.app.pid n := by
  rcases hw with ⟨p, hp, req, hreq, hkey⟩ | ⟨i, r, hr, -, hkey⟩
  · have hmem : key ∈ w.sentKeys c := by
      rw [sentKeys_eq hp]
      exact List.mem_append_right _ (List.mem_filterMap.2 ⟨req, hreq, hkey⟩)
    obtain ⟨n, -, heq⟩ := (h.numbered c p hp).mem hmem
    exact ⟨p, n, hp, heq⟩
  · obtain ⟨rfl, hreqkey⟩ := keyAt_eq_some.1 hkey
    obtain ⟨p, n, hp, -, heq, -⟩ := h.numbered_of_mem (List.mem_of_getElem? hr) hreqkey
    exact ⟨p, n, hp, heq⟩

/-- A message never waits while another one of its own process has its key. -/
theorem Inv.ne_of_waits (h : w.Inv) {i : Nat} {r : Serving Method Ok Err} (hr : w.daemon.reqs[i]? = some r)
    (hphase : r.phase ≠ .received) (hkey : r.req.idempotencyKey = some key) (hw : w.waits c key) :
    c ≠ r.conn := by
  rintro rfl
  have hself : keyAt r.conn r = some key := keyAt_eq_some.2 ⟨rfl, hkey⟩
  have hp := List.getElem?_eq_getElem (h.conns r (List.mem_of_getElem? hr))
  have hnodup := (h.keys hp).nodup
  rcases hw with ⟨p, hp', req, hreq, hreqkey⟩ | ⟨j, r', hr', hphase', hkey'⟩
  · obtain rfl := Option.some.inj (hp'.symm.trans hp)
    exact (List.nodup_append.1 hnodup).2.2 key (List.mem_filterMap.2 ⟨r, List.mem_of_getElem? hr, hself⟩) key
      (List.mem_filterMap.2 ⟨req, hreq, hreqkey⟩) rfl
  · obtain rfl := eq_of_filterMap_nodup (List.nodup_append.1 hnodup).1 hr hr' hself hkey'
    obtain rfl := Option.some.inj (hr.symm.trans hr')
    exact hphase hphase'

theorem waits_setProc {p p' : Proc} {c' : Nat} (hp : w.procs[c']? = some p) (hw : (w.setProc c' p').waits c key) :
    w.waits c key ∨ c = c' ∧ ∃ req ∈ p'.wire, req.idempotencyKey = some key := by
  rcases hw with ⟨q, hq, hreq⟩ | hw
  · rw [getElem?_setProc hp] at hq
    split at hq
    · next hcc =>
      obtain rfl := Option.some.inj hq
      exact Or.inr ⟨hcc.symm, hreq⟩
    · exact Or.inl (Or.inl ⟨q, hq, hreq⟩)
  · exact Or.inl (Or.inr hw)

/-- A process whose wire holds no more than before. -/
theorem waits_of_setProc {p : Proc} (p' : Proc) {c' : Nat} (hp : w.procs[c']? = some p)
    (hwire : ∀ req ∈ p'.wire, req ∈ p.wire) (hw : (w.setProc c' p').waits c key) : w.waits c key := by
  rcases waits_setProc hp hw with hw | ⟨rfl, req, hreq, hkey⟩
  · exact hw
  · exact Or.inl ⟨p, hp, req, hwire req hreq, hkey⟩

theorem getElem?_setPhase {d : Idem Method Ok Err} {i j : Nat} {q : ReqPhase Ok Err} :
    (d.setPhase i q).reqs[j]? = (d.reqs[j]?).map fun r => if i = j then { r with phase := q } else r := by
  unfold Idem.setPhase
  rw [List.getElem?_modify]
  cases d.reqs[j]? with
  | none => rfl
  | some r =>
    by_cases h : i = j <;> simp [h]

/-- A request that moves on does not begin to wait. -/
theorem waits_setPhase {i : Nat} {q : ReqPhase Ok Err}
    (hq : q = .received → w.daemon.phaseOf i = some .received) :
    { w with daemon := w.daemon.setPhase i q }.waits c key → w.waits c key := by
  rintro (hw | ⟨j, r, hr, hphase, hkey⟩)
  · exact Or.inl hw
  · rw [getElem?_setPhase] at hr
    obtain ⟨r', hr', rfl⟩ := Option.map_eq_some_iff.1 hr
    right
    refine ⟨j, r', hr', ?_, ?_⟩
    · split at hphase
      · next hij =>
        have hrecv := hq hphase
        subst hij
        unfold Idem.phaseOf at hrecv
        rw [hr'] at hrecv
        exact Option.some.inj hrecv
      · exact hphase
    · split at hkey <;> exact hkey

/-- A request that was not waiting leaves the waiting ones waiting. -/
theorem waits_setPhase_of_ne {i : Nat} {q : ReqPhase Ok Err} (hi : w.daemon.phaseOf i ≠ some .received)
    (hw : w.waits c key) : { w with daemon := w.daemon.setPhase i q }.waits c key := by
  rcases hw with hw | ⟨j, r, hr, hphase, hkey⟩
  · exact Or.inl hw
  · right
    have hij : i ≠ j := by
      rintro rfl
      apply hi
      unfold Idem.phaseOf
      rw [hr, Option.map_some, hphase]
    refine ⟨j, r, ?_, hphase, hkey⟩
    rw [getElem?_setPhase, hr, Option.map_some, if_neg hij]

/-- Nothing is newly waiting, nothing newly cached, and who has been looked up has been counted. -/
theorem OwnRun.mono {t : World Ok Err} (h : w.OwnRun) (hwaits : ∀ c key, t.waits c key → w.waits c key)
    (hcached : ∀ key, t.cached key → w.cached key)
    (hexecuted : ∀ i key, t.daemon.keyOf i = some key → t.daemon.phaseOf i ≠ some .received →
      i ∈ t.daemon.executed) : t.OwnRun :=
  ⟨fun c key hw hc => h.distinct c key (hwaits c key hw) (hcached key hc), hexecuted⟩

theorem OwnRun.executed_setPhase {i : Nat} {q : ReqPhase Ok Err} (h : w.OwnRun) {executed : List Nat}
    (hsub : ∀ j ∈ w.daemon.executed, j ∈ executed) (hi : i ∈ executed) (j : Nat) (key : String)
    (hkey : (w.daemon.setPhase i q).keyOf j = some key)
    (hphase : (w.daemon.setPhase i q).phaseOf j ≠ some .received) : j ∈ executed := by
  rw [Idem.keyOf_setPhase] at hkey
  rw [Idem.phaseOf_setPhase] at hphase
  by_cases hij : i = j
  · exact hij ▸ hi
  · rw [if_neg hij] at hphase
    exact hsub j (h.executed j key hkey hphase)

/-! ## A run of its own -/

theorem own_new : (new : World Ok Err).OwnRun where
  distinct c key hw := by
    rcases hw with ⟨p, hp, -⟩ | ⟨i, r, hr, -⟩
    · simp [new] at hp
    · simp [new, Idem.new] at hr
  executed i key h := by simp [new, Idem.new, Idem.keyOf] at h

theorem OwnRun.start {pid : Nat} (h : w.OwnRun) : OwnRun { w with
    procs := w.procs ++ [{ app := (App.connect pid).1, alive := true, wire := [(App.connect pid).2] }] } := by
  refine h.mono ?_ (fun _ hc => hc) h.executed
  rintro c key (⟨p, hp, req, hreq, hkey⟩ | hw)
  · left
    by_cases hlt : c < w.procs.length
    · refine ⟨p, ?_, req, hreq, hkey⟩
      exact (List.getElem?_append_left hlt).symm.trans hp
    · change (w.procs ++ [_])[c]? = some p at hp
      rw [List.getElem?_append_right (by omega), List.getElem?_singleton] at hp
      split at hp
      · obtain rfl := Option.some.inj hp
        obtain rfl := List.mem_singleton.1 hreq
        simp [App.connect] at hkey
      · simp at hp
  · exact Or.inr hw

/-- Sending a message is harmless unless a result is cached under its key, which then is that of an
earlier process with this id. -/
theorem own_input_iff {i : Input} {p : Proc} {app : App} {req : Req Method} (h : w.Inv) (hown : w.OwnRun)
    (hp : w.proc c = some p) (hi : p.app.onInput i = some (app, req)) :
    (w.setProc c { p with app, wire := p.wire ++ [req] }).OwnRun ↔ ¬ w.Reused (.input c i) := by
  obtain ⟨hpid, hnext, hkey⟩ := onInput_spec hi
  obtain ⟨hc, halive⟩ := proc_eq_some.1 hp
  have hwaits (c' : Nat) (key : String)
      (hw : (w.setProc c { p with app, wire := p.wire ++ [req] }).waits c' key) :
      w.waits c' key ∨ req.idempotencyKey = some key := by
    rcases waits_setProc hc hw with hw | ⟨rfl, req', hreq, hkey'⟩
    · exact Or.inl hw
    · rcases List.mem_append.1 hreq with hreq | hreq
      · exact Or.inl (Or.inl ⟨p, hc, req', hreq, hkey'⟩)
      · exact Or.inr (List.mem_singleton.1 hreq ▸ hkey')
  have hquiet (hnone : req.idempotencyKey = none) (hno : ¬ w.Reused (.input c i)) :
      (w.setProc c { p with app, wire := p.wire ++ [req] }).OwnRun ↔ ¬ w.Reused (.input c i) := by
    refine iff_of_true (hown.mono (fun c' key hw => ?_) (fun _ hc => hc) hown.executed) hno
    rcases hwaits c' key hw with hw | hw
    · exact hw
    · simp [hnone] at hw
  cases i with
  | chat text =>
    rw [keyFor, hnext, hpid] at hkey
    constructor
    · -- The new message waits where the result already is.
      rintro ht ⟨p₁, c', p', hp₁, -, -, hpid', -, hcached⟩
      obtain rfl := Option.some.inj (hp.symm.trans hp₁)
      refine ht.distinct c (uuidLike p'.app.pid (p.app.nextReq + 1)) 
        (Or.inl ⟨{ p with app, wire := p.wire ++ [req] }, ?_, req, ?_, ?_⟩) hcached
      · rw [getElem?_setProc hc, if_pos rfl]
      · simp
      · rw [hkey, hpid']
    · intro hno
      refine ⟨fun c' key hw hcached => ?_, hown.executed⟩
      rcases hwaits c' key hw with hw | hw
      · exact hown.distinct c' key hw hcached
      · obtain rfl := Option.some.inj (hkey.symm.trans hw)
        obtain ⟨c₁, p₁, n, hc₁, hn, heq, hsent⟩ := h.numbered_of_cached (w := w) hcached
        obtain ⟨hpid₁, rfl⟩ := uuidLike_inj heq
        refine hno ⟨p, c₁, p₁, hp, hc₁, ?_, hpid₁.symm, hpid₁ ▸ hsent, hpid₁ ▸ hcached⟩
        -- Its process is not this one, whose numbers are used up, so it has ended.
        by_contra hlive
        rw [Bool.not_eq_false] at hlive
        obtain rfl := h.pids c c₁ p p₁ hp (proc_eq_some.2 ⟨hc₁, hlive⟩) hpid₁
        obtain rfl := Option.some.inj (hc.symm.trans hc₁)
        omega
  | command text => exact hquiet hkey id
  | approve allow => exact hquiet hkey id
  | answer text => exact hquiet hkey id

/-- A result that comes in is harmless unless a message waits under its key, which then is that of another
process with this id. -/
theorem own_answer_iff {i : Nat} {r : Serving Method Ok Err} {res : ResResult Ok Err} (h : w.Inv)
    (hown : w.OwnRun) (hr : w.daemon.reqs[i]? = some r) (hphase : r.phase = .handled res) :
    OwnRun { w with daemon := (w.daemon.storeResult r.req.idempotencyKey res).setPhase i (.answered res) } ↔
      ¬ w.Reused (.serve (.answer i)) := by
  have hphaseOf : w.daemon.phaseOf i = some (.handled res) := by
    unfold Idem.phaseOf
    rw [hr, Option.map_some, hphase]
  have hlooked : w.daemon.phaseOf i ≠ some .received := by simp [hphaseOf]
  have hexec : i ∈ w.daemon.executed :=
    h.daemon.begun i _ hphaseOf (by simp) (by simp [Idem.ReqPhase.isAnswered])
  have hbare : OwnRun { w with daemon := w.daemon.setPhase i (.answered res) } :=
    hown.mono (fun c key => waits_setPhase (by simp)) (fun _ hc => hc)
      (hown.executed_setPhase (fun _ hj => hj) hexec)
  unfold Idem.storeResult
  split
  case h_2 hnone =>
    refine iff_of_true hbare ?_
    rintro ⟨r', ok, p, c', p', n, hr', hphase', -, hkey, -⟩
    obtain rfl := Option.some.inj (hr.symm.trans hr')
    exact hnone _ _ hkey (ReqPhase.handled.inj (hphase.symm.trans hphase'))
  case h_1 key ok hkey =>
    have hstored (key' : String) (hc : World.cached
        { w with daemon := (w.daemon.idemPut key ok).setPhase i (.answered (.ok ok)) } key') :
        key' = key ∨ w.cached key' := by
      obtain ⟨e, he, hfresh⟩ := hc
      change (w.daemon.idem.insert key _).lookup key' = some e at he
      by_cases hk : key' = key
      · exact Or.inl hk
      · rw [AList.lookup_insert_ne hk] at he
        exact Or.inr ⟨e, he, hfresh⟩
    constructor
    · rintro ht ⟨r', ok', p, c', p', n, hr', hphase', hp, hkey', hne, hp', hpid, hw⟩
      obtain rfl := Option.some.inj (hr.symm.trans hr')
      obtain rfl := Option.some.inj (hkey'.symm.trans hkey)
      refine ht.distinct c' (uuidLike p.app.pid n) (waits_setPhase_of_ne hlooked (hpid ▸ hw)) ?_
      refine ⟨{ ok, cachedAt := w.daemon.now }, AList.lookup_insert _, ?_⟩
      show decide (w.daemon.now - w.daemon.now < idemTtl) = true
      rw [Nat.sub_self]
      decide
    · intro hno
      refine ⟨fun c' key' hw hc => ?_, hbare.executed⟩
      have hw' : w.waits c' key' := waits_setPhase (w := w) (by simp) hw
      rcases hstored key' hc with rfl | hc
      · obtain ⟨p, n, hp, -, heq, -⟩ := h.numbered_of_mem (List.mem_of_getElem? hr) hkey
        obtain ⟨p', n', hp', heq'⟩ := h.numbered_of_waits hw'
        obtain ⟨hpid, rfl⟩ := uuidLike_inj (heq.symm.trans heq')
        exact hno ⟨r, ok, p, c', p', n, hr, hphase, hp, heq ▸ hkey,
          h.ne_of_waits hr (by simp [hphase]) hkey hw', hp', hpid.symm, heq' ▸ hw'⟩
      · exact hown.distinct c' key' hw' hc

/-- A message that is read goes on waiting. -/
theorem own_read {p : Proc} {req : Req Method} {wire : List (Req Method)} (hown : w.OwnRun)
    (hp : w.procs[c]? = some p) (hwire : p.wire = req :: wire) :
    OwnRun { w.setProc c { p with wire } with
      daemon := { w.daemon with reqs := w.daemon.reqs ++ [{ conn := c, req, phase := .received }] } } := by
  refine hown.mono ?_ (fun _ hc => hc) ?_
  · rintro c' key (hw | ⟨j, r, hr, hphase, hkey⟩)
    · exact waits_of_setProc { p with wire } hp (fun _ hreq => hwire ▸ List.mem_cons_of_mem _ hreq) (Or.inl hw)
    · by_cases hlt : j < w.daemon.reqs.length
      · exact Or.inr ⟨j, r, (List.getElem?_append_left hlt).symm.trans hr, hphase, hkey⟩
      · change (w.daemon.reqs ++ [_])[j]? = some r at hr
        rw [List.getElem?_append_right (by omega), List.getElem?_singleton] at hr
        split at hr
        · obtain rfl := Option.some.inj hr
          obtain ⟨rfl, hreqkey⟩ := keyAt_eq_some.1 hkey
          exact Or.inl ⟨p, hp, req, hwire ▸ List.mem_cons_self, hreqkey⟩
        · simp at hr
  · intro j key hkey hphase
    by_cases hlt : j < w.daemon.reqs.length
    · apply hown.executed j key
      · unfold Idem.keyOf at hkey ⊢
        rwa [List.getElem?_append_left hlt] at hkey
      · unfold Idem.phaseOf at hphase ⊢
        rwa [List.getElem?_append_left hlt] at hphase
    · exfalso
      unfold Idem.keyOf at hkey
      unfold Idem.phaseOf at hphase
      rw [List.getElem?_append_right (by omega), List.getElem?_singleton] at hkey hphase
      split at hphase
      · exact hphase rfl
      · next hne => simp [hne] at hkey

/-- The daemon's own steps: only an answer can meet a message that waits. -/
theorem own_serve_iff {a : Idem.Act Method Ok Err} {daemon : Idem Method Ok Err} (h : w.Inv) (hown : w.OwnRun)
    (ha : ∀ conn req, a ≠ .arrive conn req) (hdaemon : Idem.step w.daemon a = some daemon) :
    OwnRun { w with daemon } ↔ ¬ w.Reused (.serve a) := by
  cases Idem.change_of_step hdaemon with
  | @arrive conn req => exact absurd rfl (ha conn req)
  | @hit i key e hphase hkey hlook hfresh =>
    obtain ⟨r, hr, hreqkey⟩ := Option.bind_eq_some_iff.1 hkey
    have hrecv : r.phase = .received := by
      unfold Idem.phaseOf at hphase
      rw [hr] at hphase
      exact Option.some.inj hphase
    exact absurd ⟨e, hlook, hfresh⟩
      (hown.distinct r.conn key (Or.inr ⟨i, r, hr, hrecv, keyAt_eq_some.2 ⟨rfl, hreqkey⟩⟩))
  | @miss i q hphase hq hcold =>
    refine iff_of_true (hown.mono (fun c key => waits_setPhase (w := w) fun _ => hphase) (fun _ hc => hc) ?_) id
    exact hown.executed_setPhase (fun _ hj => List.mem_cons_of_mem _ hj) List.mem_cons_self
  | @remove i key hphase =>
    have hexec : i ∈ w.daemon.executed :=
      h.daemon.begun i _ hphase (by simp) (by simp [Idem.ReqPhase.isAnswered])
    refine iff_of_true (hown.mono (fun c key => waits_setPhase (w := w) (by simp)) ?_
      (hown.executed_setPhase (fun _ hj => hj) hexec)) id
    rintro key' ⟨e, he, hfresh⟩
    change (w.daemon.idem.erase key).lookup key' = some e at he
    by_cases hk : key' = key
    · rw [hk, AList.lookup_erase] at he
      simp at he
    · rw [AList.lookup_erase_ne hk] at he
      exact ⟨e, he, hfresh⟩
  | @handled i r hphase =>
    have hexec : i ∈ w.daemon.executed :=
      h.daemon.begun i _ hphase (by simp) (by simp [Idem.ReqPhase.isAnswered])
    exact iff_of_true (hown.mono (fun c key => waits_setPhase (w := w) (by simp)) (fun _ hc => hc)
      (hown.executed_setPhase (fun _ hj => hj) hexec)) id
  | @answer i res hphase =>
    obtain ⟨r, hr, hrphase⟩ := Option.map_eq_some_iff.1 hphase
    have hkey : w.daemon.keyOf i = r.req.idempotencyKey := by
      unfold Idem.keyOf
      rw [hr]
      rfl
    rw [hkey]
    exact own_answer_iff h hown hr hrphase
  | @advance ms =>
    refine iff_of_true (hown.mono (fun _ _ hw => hw) ?_ hown.executed) id
    rintro key ⟨e, he, hfresh⟩
    refine ⟨e, he, decide_eq_true ?_⟩
    have hage : w.daemon.now + ms - e.cachedAt < idemTtl := of_decide_eq_true hfresh
    omega
  | gcTick =>
    refine iff_of_true (hown.mono (fun _ _ hw => hw) ?_ hown.executed) id
    rintro key ⟨e, he, hfresh⟩
    exact ⟨e, IdMap.lookup_retain he, hfresh⟩

/-- One step keeps every message to a run of its own exactly if it does not let a reused process id
meet its predecessor's result. -/
theorem own_step_iff {t : World Ok Err} {a : Act Ok Err} (h : w.Inv) (hown : w.OwnRun)
    (hstep : step w a = some t) : t.OwnRun ↔ ¬ w.Reused a := by
  cases change_of_step hstep with
  | start hfree => exact iff_of_true hown.start id
  | input hp hi => exact own_input_iff h hown hp hi
  | @shown c session approval userInput p app hp hpid hnext =>
    refine iff_of_true (hown.mono (fun c key => ?_) (fun _ hc => hc) hown.executed) id
    exact waits_of_setProc _ (proc_eq_some.1 hp).1 fun _ hreq => hreq
  | @quit c p hp =>
    refine iff_of_true (hown.mono (fun c key => ?_) (fun _ hc => hc) hown.executed) id
    exact waits_of_setProc _ (proc_eq_some.1 hp).1 fun _ hreq => hreq
  | @read c p req wire daemon hp hwire hdaemon =>
    obtain rfl : daemon = { w.daemon with reqs := w.daemon.reqs ++ [{ conn := c, req, phase := .received }] } := by
      cases Idem.change_of_step hdaemon
      rfl
    exact iff_of_true (own_read hown hp hwire) id
  | serve ha hdaemon => exact own_serve_iff h hown ha hdaemon

end Meeting

/-- In every run each message a user enters becomes a run of its own exactly if no message is sent, and no
result comes in, where the results of an earlier process with the same id and the message's number meet. -/
theorem own_run_iff (as : List (Act Ok Err)) :
    Steps.AllStates step OwnRun new as ↔ Steps.AllSteps step (fun w a _ => ¬ w.Reused a) new as :=
  Steps.allStates_iff_allSteps (fun _ _ _ h ht => inv_step h ht) (fun _ _ _ h hown ht => own_step_iff h hown ht)
    inv_new own_new as

/-- A client is restarted under the same process id within the hour: its first message is answered with
the run of its predecessor's. -/
def restartActs : List (Act String Unit) :=
  [.start 7, .read 0, .serve (.lookup 0), .serve (.handled 0 (.ok "hello")), .serve (.answer 0),
    .input 0 (.chat "一"), .read 0, .serve (.lookup 1), .serve (.handled 1 (.ok "run-1")), .serve (.answer 1),
    .quit 0, .serve (.advance 60000),
    .start 7, .read 1, .serve (.lookup 2), .serve (.handled 2 (.ok "hello")), .serve (.answer 2),
    .input 1 (.chat "二"), .read 1, .serve (.lookup 3)]

theorem own_run_fails : ¬ ∀ as : List (Act String Unit), Steps.AllStates step OwnRun new as := by
  intro h
  have hrun : (Steps.exec step (new : World String Unit) restartActs).map (fun w =>
      (w.daemon.keyOf 3, w.daemon.phaseOf 3, w.daemon.executed)) =
      some (some (uuidLike 7 2), some (.answered (.ok "run-1")), [2, 1, 0]) := by
    decide
  obtain ⟨w, hw, hfinal⟩ := Option.map_eq_some_iff.1 hrun
  simp only [Prod.mk.injEq] at hfinal
  obtain ⟨hkey, hphase, hexecuted⟩ := hfinal
  have hown := Steps.allStates_iff.1 (h restartActs) _ w (List.prefix_refl _) hw
  have hmem := hown.executed 3 _ hkey (by simp [hphase])
  rw [hexecuted] at hmem
  revert hmem
  decide

end World

end Tui

end OhMyClaw
