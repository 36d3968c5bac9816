import OhMyClaw.Lib.Steps

/-!
# The pool of connections to the daemon

A connection holds a permit for as long as it exists, idle or not.  `acquire` takes an idle
connection if it finds one and otherwise waits for a permit, for ten seconds at most.  The permits
are given out in the order of asking, and one that is freed while somebody waits is never to be
had by anyone else.  A connection that is put back while somebody waits frees no permit: it lies
in the pool, and the waiter does not look there again.

    step_sound         the permits are conserved, and what each waiter could have had is recorded
    busy_iff           when every answer Busy is right
-/

namespace OhMyClaw

/-- A connection, and whether `release` has found it healthy and goes for the lock. -/
structure Conn where
  healthy : Bool
  returning : Bool
deriving DecidableEq, Repr

/-- An `acquire` that waits for a permit.  The fields are for the record: whether there was a
healthy connection in the pool as the wait began, how many had been put back by then, and whether
there was one, or a free permit, at any time since. -/
structure Waiter where
  foundIdle : Bool
  putBacks : Nat
  seen : Bool
deriving DecidableEq, Repr

/-- The pool, and the calls under way: `entering` have found it empty, `waiters` wait for a permit,
`connecting` have one and open their connection. -/
structure ConnPool where
  maxIdle : Nat
  maxConns : Nat
  /-- The last one is the first to be taken. -/
  idle : List Conn
  out : List Conn
  permits : Nat
  entering : Nat
  waiters : List Waiter
  connecting : Nat
  /-- How many healthy connections have been put back so far. -/
  putBacks : Nat
  /-- For each answer Busy, whether its call could have been served while it waited. -/
  busy : List Bool
deriving DecidableEq, Repr

namespace ConnPool

def new (maxIdle maxConns : Nat) : ConnPool :=
  let maxConns := max maxConns 1
  { maxIdle := min maxIdle maxConns, maxConns, idle := [], out := [], permits := maxConns, entering := 0
    waiters := [], connecting := 0, putBacks := 0, busy := [] }

def hasIdle (p : ConnPool) : Bool := p.idle.any (·.healthy)

/-- A permit comes back: to the first of those who wait, if anyone does. -/
def freePermit (p : ConnPool) : ConnPool :=
  match p.waiters with
  | [] => { p with permits := p.permits + 1 }
  | _ :: rest => { p with waiters := rest, connecting := p.connecting + 1 }

/-- Write down for each waiter what it could have now. -/
def record (p : ConnPool) : ConnPool :=
  { p with waiters := p.waiters.map fun x => { x with seen := x.seen || p.hasIdle || 0 < p.permits } }

inductive Act where
  /-- One round of the loop of `acquire`. -/
  | pop
  /-- An `acquire` that has found the pool empty asks for a permit. -/
  | enter
  /-- A waiter's time is over. -/
  | timeout (i : Nat)
  /-- A waiter's caller goes away. -/
  | cancel (i : Nat)
  | connected (ok : Bool)
  | idleDies (i : Nat)
  | outDies (i : Nat)
  /-- `release` looks at the connection … -/
  | release (i : Nat)
  /-- … and has the lock. -/
  | putBack (i : Nat)
  /-- A connection is dropped without `release`. -/
  | drop (i : Nat)
deriving DecidableEq, Repr

def die (c : Conn) : Conn := { c with healthy := false }

def act (p : ConnPool) : Act → Option ConnPool
  | .pop =>
    match p.idle.getLast? with
    | some c =>
      if c.healthy then some { p with idle := p.idle.dropLast, out := p.out ++ [c] }
      -- a dead one is dropped, with its permit, and the loop goes on
      else some (freePermit { p with idle := p.idle.dropLast })
    | none => some { p with entering := p.entering + 1 }
  | .enter =>
    if p.entering = 0 then none
    else if 0 < p.permits then
      some { p with entering := p.entering - 1, permits := p.permits - 1, connecting := p.connecting + 1 }
    else
      some { p with
        entering := p.entering - 1
        waiters := p.waiters ++ [{ foundIdle := p.hasIdle, putBacks := p.putBacks, seen := false }] }
  | .timeout i => p.waiters[i]?.map fun x => { p with waiters := p.waiters.eraseIdx i, busy := p.busy ++ [x.seen] }
  | .cancel i => if i < p.waiters.length then some { p with waiters := p.waiters.eraseIdx i } else none
  | .connected ok =>
    if p.connecting = 0 then none
    else if ok then
      some { p with connecting := p.connecting - 1, out := p.out ++ [{ healthy := true, returning := false }] }
    else some (freePermit { p with connecting := p.connecting - 1 })
  | .idleDies i => some { p with idle := p.idle.modify i die }
  | .outDies i => some { p with out := p.out.modify i die }
  | .release i =>
    p.out[i]?.bind fun c =>
      if c.returning then none
      else if c.healthy then some { p with out := p.out.set i { c with returning := true } }
      else some (freePermit { p with out := p.out.eraseIdx i })
  | .putBack i =>
    p.out[i]?.bind fun c =>
      if c.returning then
        if p.idle.length < p.maxIdle then
          some { p with
            out := p.out.eraseIdx i, idle := p.idle ++ [{ c with returning := false }]
            putBacks := if c.healthy then p.putBacks + 1 else p.putBacks }
        else some (freePermit { p with out := p.out.eraseIdx i })
      else none
  | .drop i => if i < p.out.length then some (freePermit { p with out := p.out.eraseIdx i }) else none

def step (p : ConnPool) (a : Act) : Option ConnPool := (p.act a).map record

/-- The connections there are: idle and checked out. -/
def live (p : ConnPool) : Nat := p.idle.length + p.out.length

/-- What is claimed of every state: the bound on the connections, and that nobody was sent away who
could have been served. -/
structure Justified (p : ConnPool) : Prop where
  bounded : p.live ≤ p.maxConns
  busy : ∀ seen ∈ p.busy, seen = false

/-- A healthy connection was in the pool as the wait began, or has been put back since. -/
def Offered (p : ConnPool) (x : Waiter) : Prop := x.foundIdle = true ∨ x.putBacks < p.putBacks

/-- No call is sent away that was offered a connection. -/
def Patient (p : ConnPool) : Act → Prop
  | .timeout i => ∀ x, p.waiters[i]? = some x → ¬ p.Offered x
  | _ => True

/-! ## The permits -/

/-- Every permit is free, with a connection, or with a call that opens one; and none is free while
somebody waits. -/
structure Conserved (p : ConnPool) : Prop where
  total : p.permits + p.live + p.connecting = p.maxConns
  fair : p.waiters ≠ [] → p.permits = 0

/-- One permit is on its way back. -/
structure Freed (p : ConnPool) : Prop where
  total : p.permits + p.live + p.connecting + 1 = p.maxConns
  fair : p.waiters ≠ [] → p.permits = 0

theorem conserved_freePermit {p : ConnPool} (h : Freed p) : Conserved (freePermit p) := by
  have htotal := h.total
  unfold freePermit
  split
  · next hnil =>
    constructor
    · show p.permits + 1 + p.live + p.connecting = p.maxConns
      omega
    · intro hne
      exact absurd hnil hne
  · next x rest hcons =>
    constructor
    · show p.permits + p.live + (p.connecting + 1) = p.maxConns
      omega
    · intro _
      exact h.fair (by simp [hcons])

theorem act_conserved {p p' : ConnPool} {a : Act} (h : Conserved p) (hact : p.act a = some p') : Conserved p' := by
  obtain ⟨htotal, hfair⟩ := h
  unfold live at htotal
  cases a with
  | pop =>
    simp only [act] at hact
    split at hact
    · next c hlast =>
      have hlen : p.idle.dropLast.length + 1 = p.idle.length := by
        have hne : p.idle ≠ [] := by
          rintro hnil
          simp [hnil] at hlast
        have := List.length_pos_iff.2 hne
        rw [List.length_dropLast]
        omega
      split at hact
      · obtain rfl := Option.some.inj hact
        refine ⟨?_, hfair⟩
        simp only [live, List.length_append, List.length_singleton]
        omega
      · obtain rfl := Option.some.inj hact
        refine conserved_freePermit ⟨?_, hfair⟩
        simp only [live]
        omega
    · obtain rfl := Option.some.inj hact
      exact ⟨htotal, hfair⟩
  | enter =>
    simp only [act] at hact
    split_ifs at hact with hentering hpermits
    · obtain rfl := Option.some.inj hact
      refine ⟨?_, ?_⟩
      · simp only [live]
        omega
      · intro hne
        have := hfair hne
        omega
    · obtain rfl := Option.some.inj hact
      refine ⟨htotal, fun _ => ?_⟩
      show p.permits = 0
      omega
  | timeout i =>
    obtain ⟨x, hx, rfl⟩ := Option.map_eq_some_iff.1 hact
    refine ⟨htotal, fun hne => hfair ?_⟩
    rintro hnil
    simp [hnil] at hx
  | cancel i =>
    simp only [act, Option.ite_none_right_eq_some, Option.some.injEq] at hact
    obtain ⟨hi, rfl⟩ := hact
    refine ⟨htotal, fun hne => hfair ?_⟩
    rintro hnil
    simp [hnil] at hi
  | connected ok =>
    simp only [act] at hact
    split_ifs at hact with hconnecting hok
    · obtain rfl := Option.some.inj hact
      refine ⟨?_, hfair⟩
      simp only [live, List.length_append, List.length_singleton]
      omega
    · obtain rfl := Option.some.inj hact
      refine conserved_freePermit ⟨?_, hfair⟩
      simp only [live]
      omega
  | idleDies i =>
    obtain rfl := Option.some.inj hact
    refine ⟨?_, hfair⟩
    simpa only [live, List.length_modify] using htotal
  | outDies i =>
    obtain rfl := Option.some.inj hact
    refine ⟨?_, hfair⟩
    simpa only [live, List.length_modify] using htotal
  | release i =>
    obtain ⟨c, hc, hact⟩ := Option.bind_eq_some_iff.1 hact
    have hi := (List.getElem?_eq_some_iff.1 hc).1
    split_ifs at hact
    · obtain rfl := Option.some.inj hact
      refine ⟨?_, hfair⟩
      simpa only [live, List.length_set] using htotal
    · obtain rfl := Option.some.inj hact
      refine conserved_freePermit ⟨?_, hfair⟩
      simp only [live, List.length_eraseIdx_of_lt hi]
      omega
  | putBack i =>
    obtain ⟨c, hc, hact⟩ := Option.bind_eq_some_iff.1 hact
    have hi := (List.getElem?_eq_some_iff.1 hc).1
    simp only [Option.ite_none_right_eq_some] at hact
    obtain ⟨-, hact⟩ := hact
    split at hact
    · obtain rfl := Option.some.inj hact
      refine ⟨?_, hfair⟩
      simp only [live, List.length_eraseIdx_of_lt hi, List.length_append, List.length_singleton]
      omega
    · obtain rfl := Option.some.inj hact
      refine conserved_freePermit ⟨?_, hfair⟩
      simp only [live, List.length_eraseIdx_of_lt hi]
      omega
  | drop i =>
    simp only [act, Option.ite_none_right_eq_some, Option.some.injEq] at hact
    obtain ⟨hi, rfl⟩ := hact
    refine conserved_freePermit ⟨?_, hfair⟩
    simp only [live, List.length_eraseIdx_of_lt hi]
    omega

/-! ## What a waiter could have had -/

/-- Each waiter's record is right so far: it has seen only what it was offered, what it was offered
and has not seen is there now, and what is there now it was offered. -/
structure Watched (p : ConnPool) (x : Waiter) : Prop where
  past : x.putBacks ≤ p.putBacks
  offered : x.seen = true → p.Offered x
  seen : p.Offered x → x.seen = true ∨ p.hasIdle = true
  idle : p.hasIdle = true → p.Offered x

/-- What takes nothing back and puts nothing into the pool leaves the records right, as long as what
was there has been seen. -/
theorem Watched.mono {p p' : ConnPool} {x : Waiter} (h : Watched p x) (hputBacks : p'.putBacks = p.putBacks)
    (hidle : p'.hasIdle = true → p.hasIdle = true) (hseen : p.Offered x → x.seen = true) : Watched p' x := by
  have hsame : p'.Offered x ↔ p.Offered x := by
    simp only [Offered, hputBacks]
  refine ⟨hputBacks ▸ h.past, ?_, ?_, ?_⟩
  · exact fun hs => hsame.2 (h.offered hs)
  · exact fun ho => Or.inl (hseen (hsame.1 ho))
  · exact fun hi => hsame.2 (h.idle (hidle hi))

theorem mem_waiters_freePermit {p : ConnPool} {x : Waiter} (h : x ∈ (freePermit p).waiters) : x ∈ p.waiters := by
  unfold freePermit at h
  split at h
  · exact h
  · next hcons =>
    rw [hcons]
    exact List.mem_cons_of_mem _ h

@[simp] theorem putBacks_freePermit (p : ConnPool) : (freePermit p).putBacks = p.putBacks := by
  unfold freePermit
  split <;> rfl

@[simp] theorem hasIdle_freePermit (p : ConnPool) : (freePermit p).hasIdle = p.hasIdle := by
  unfold freePermit
  split <;> rfl

@[simp] theorem busy_freePermit (p : ConnPool) : (freePermit p).busy = p.busy := by
  unfold freePermit
  split <;> rfl

theorem hasIdle_dropLast {p : ConnPool} (h : p.idle.dropLast.any (·.healthy) = true) : p.hasIdle = true := by
  obtain ⟨c, hc, hhealthy⟩ := List.any_eq_true.1 h
  exact List.any_eq_true.2 ⟨c, List.dropLast_subset _ hc, hhealthy⟩

theorem hasIdle_modify {p : ConnPool} {i : Nat} (h : (p.idle.modify i die).any (·.healthy) = true) :
    p.hasIdle = true := by
  obtain ⟨c, hc, hhealthy⟩ := List.any_eq_true.1 h
  obtain ⟨j, hj⟩ := List.mem_iff_getElem?.1 hc
  rw [List.getElem?_modify] at hj
  obtain ⟨c', hc', rfl⟩ := Option.map_eq_some_iff.1 hj
  refine List.any_eq_true.2 ⟨c', List.mem_of_getElem? hc', ?_⟩
  split at hhealthy
  · simp [die] at hhealthy
  · exact hhealthy

/-- The records after a step, before what can be seen now is written down. -/
theorem act_watched {p p' : ConnPool} {a : Act} (h : ∀ x ∈ p.waiters, Watched p x)
    (hseen : ∀ x ∈ p.waiters, p.Offered x → x.seen = true) (hact : p.act a = some p') :
    ∀ x ∈ p'.waiters, Watched p' x := by
  have hfreed : ∀ q : ConnPool, q.waiters = p.waiters → q.putBacks = p.putBacks →
      (q.hasIdle = true → p.hasIdle = true) → ∀ x ∈ (freePermit q).waiters, Watched (freePermit q) x := by
    intro q hwaiters hputBacks hidle x hx
    have hx := hwaiters ▸ mem_waiters_freePermit hx
    exact (h x hx).mono (by simpa using hputBacks) (by simpa using hidle) (hseen x hx)
  cases a with
  | pop =>
    simp only [act] at hact
    split at hact
    · split at hact
      · obtain rfl := Option.some.inj hact
        exact fun x hx => (h x hx).mono rfl hasIdle_dropLast (hseen x hx)
      · obtain rfl := Option.some.inj hact
        exact hfreed _ rfl rfl hasIdle_dropLast
    · obtain rfl := Option.some.inj hact
      exact fun x hx => (h x hx).mono rfl id (hseen x hx)
  | enter =>
    simp only [act] at hact
    split_ifs at hact
    · obtain rfl := Option.some.inj hact
      exact fun x hx => (h x hx).mono rfl id (hseen x hx)
    · obtain rfl := Option.some.inj hact
      intro x hx
      rcases List.mem_append.1 hx with hx | hx
      · exact (h x hx).mono rfl id (hseen x hx)
      · obtain rfl := List.mem_singleton.1 hx
        refine ⟨Nat.le_refl _, nofun, ?_, Or.inl⟩
        rintro (hfound | hlater)
        · exact Or.inr hfound
        · exact absurd hlater (Nat.lt_irrefl _)
  | timeout i =>
    obtain ⟨_, -, rfl⟩ := Option.map_eq_some_iff.1 hact
    intro x hx
    have hx := List.mem_of_mem_eraseIdx hx
    exact (h x hx).mono rfl id (hseen x hx)
  | cancel i =>
    simp only [act, Option.ite_none_right_eq_some, Option.some.injEq] at hact
    obtain ⟨-, rfl⟩ := hact
    intro x hx
    have hx := List.mem_of_mem_eraseIdx hx
    exact (h x hx).mono rfl id (hseen x hx)
  | connected ok =>
    simp only [act] at hact
    split_ifs at hact
    · obtain rfl := Option.some.inj hact
      exact fun x hx => (h x hx).mono rfl id (hseen x hx)
    · obtain rfl := Option.some.inj hact
      exact hfreed _ rfl rfl id
  | idleDies i =>
    obtain rfl := Option.some.inj hact
    exact fun x hx => (h x hx).mono rfl hasIdle_modify (hseen x hx)
  | outDies i =>
    obtain rfl := Option.some.inj hact
    exact fun x hx => (h x hx).mono rfl id (hseen x hx)
  | release i =>
    obtain ⟨c, -, hact⟩ := Option.bind_eq_some_iff.1 hact
    split_ifs at hact
    · obtain rfl := Option.some.inj hact
      exact fun x hx => (h x hx).mono rfl id (hseen x hx)
    · obtain rfl := Option.some.inj hact
      exact hfreed _ rfl rfl id
  | putBack i =>
    obtain ⟨c, -, hact⟩ := Option.bind_eq_some_iff.1 hact
    simp only [Option.ite_none_right_eq_some] at hact
    obtain ⟨-, hact⟩ := hact
    split at hact
    · obtain rfl := Option.some.inj hact
      intro x hx
      have hpast := (h x hx).past
      by_cases hhealthy : c.healthy = true
      · -- the one step that offers a waiter something
        have hthere : (p.idle ++ [{ c with returning := false }]).any (·.healthy) = true := by
          simp [hhealthy]
        have hlater : x.putBacks < if c.healthy then p.putBacks + 1 else p.putBacks := by
          rw [if_pos hhealthy]
          omega
        exact ⟨Nat.le_of_lt hlater, fun _ => Or.inr hlater, fun _ => Or.inr hthere, fun _ => Or.inr hlater⟩
      · refine (h x hx).mono (if_neg hhealthy) ?_ (hseen x hx)
        intro hidle
        simpa [hasIdle, hhealthy] using hidle
    · obtain rfl := Option.some.inj hact
      exact hfreed _ rfl rfl id
  | drop i =>
    simp only [act, Option.ite_none_right_eq_some, Option.some.injEq] at hact
    obtain ⟨-, rfl⟩ := hact
    exact hfreed _ rfl rfl id

/-! ## The invariant -/

/-- The permits are conserved, and a waiter has seen exactly what it was offered. -/
structure Sound (p : ConnPool) : Prop where
  conserved : Conserved p
  watched : ∀ x ∈ p.waiters, Watched p x
  seen : ∀ x ∈ p.waiters, x.seen = true ↔ p.Offered x

theorem sound_new (maxIdle maxConns : Nat) : Sound (new maxIdle maxConns) :=
  ⟨⟨by simp [new, live], by simp [new]⟩, by simp [new], by simp [new]⟩

theorem sound_record {p : ConnPool} (hconserved : Conserved p) (hwatched : ∀ x ∈ p.waiters, Watched p x) :
    Sound (record p) := by
  have hseen : ∀ y ∈ (record p).waiters, ∃ x, Watched p x ∧ y = { x with seen := x.seen || p.hasIdle } := by
    intro y hy
    obtain ⟨x, hx, rfl⟩ := List.mem_map.1 hy
    have hnone : p.permits = 0 := hconserved.fair (List.ne_nil_of_mem hx)
    exact ⟨x, hwatched x hx, by simp [hnone]⟩
  refine ⟨⟨hconserved.total, fun hne => hconserved.fair ?_⟩, ?_, ?_⟩
  · rintro hnil
    simp [record, hnil] at hne
  · intro y hy
    obtain ⟨x, hx, rfl⟩ := hseen y hy
    refine ⟨hx.past, ?_, ?_, hx.idle⟩
    · intro h
      rcases Bool.or_eq_true_iff.1 h with h | h
      · exact hx.offered h
      · exact hx.idle h
    · intro h
      exact (hx.seen h).imp (fun hs => by simp [hs]) id
  · intro y hy
    obtain ⟨x, hx, rfl⟩ := hseen y hy
    constructor
    · intro h
      rcases Bool.or_eq_true_iff.1 h with h | h
      · exact hx.offered h
      · exact hx.idle h
    · intro h
      exact Bool.or_eq_true_iff.2 (hx.seen h)

theorem step_sound {p p' : ConnPool} {a : Act} (h : Sound p) (hstep : p.step a = some p') : Sound p' := by
  obtain ⟨q, hq, rfl⟩ := Option.map_eq_some_iff.1 hstep
  exact sound_record (act_conserved h.conserved hq)
    (act_watched h.watched (fun x hx ho => (h.seen x hx).2 ho) hq)

theorem bounded_of_sound {p : ConnPool} (h : Sound p) : p.live ≤ p.maxConns := by
  have := h.conserved.total
  omega

/-! ## Answers Busy -/

/-- Only a timeout answers Busy. -/
theorem busy_act {p p' : ConnPool} {a : Act} (hact : p.act a = some p') :
    p'.busy = p.busy ∨ ∃ i x, a = .timeout i ∧ p.waiters[i]? = some x ∧ p'.busy = p.busy ++ [x.seen] := by
  cases a with
  | timeout i =>
    obtain ⟨x, hx, rfl⟩ := Option.map_eq_some_iff.1 hact
    exact Or.inr ⟨i, x, rfl, hx, rfl⟩
  | pop =>
    left
    simp only [act] at hact
    split at hact
    · split at hact <;> obtain rfl := Option.some.inj hact <;> simp
    · obtain rfl := Option.some.inj hact
      rfl
  | release i =>
    left
    obtain ⟨c, -, hact⟩ := Option.bind_eq_some_iff.1 hact
    split_ifs at hact <;> obtain rfl := Option.some.inj hact <;> simp
  | putBack i =>
    left
    obtain ⟨c, -, hact⟩ := Option.bind_eq_some_iff.1 hact
    simp only [Option.ite_none_right_eq_some] at hact
    obtain ⟨-, hact⟩ := hact
    split at hact <;> obtain rfl := Option.some.inj hact <;> simp
  | idleDies i | outDies i =>
    left
    obtain rfl := Option.some.inj hact
    rfl
  | _ =>
    left
    simp only [act] at hact
    split_ifs at hact <;> obtain rfl := Option.some.inj hact <;> simp

/-- The bound on the connections always holds; every answer Busy is right exactly in the runs in which no
call is sent away that was offered a connection. -/
theorem busy_iff (maxIdle maxConns : Nat) (acts : List Act) :
    Steps.AllStates step Justified (new maxIdle maxConns) acts ↔
      Steps.AllSteps step (fun p a _ => Patient p a) (new maxIdle maxConns) acts := by
  refine Steps.allStates_iff_allSteps (I := Sound) (fun _ _ _ h hs => step_sound h hs) ?_
    (sound_new maxIdle maxConns) ⟨bounded_of_sound (sound_new maxIdle maxConns), by simp [new]⟩ acts
  intro p a p' hsound hjust hstep
  have hbounded := bounded_of_sound (step_sound hsound hstep)
  obtain ⟨q, hq, rfl⟩ := Option.map_eq_some_iff.1 hstep
  have hbusy : (record q).busy = q.busy := rfl
  have hjust_iff : Justified (record q) ↔ ∀ seen ∈ q.busy, seen = false :=
    ⟨fun h => hbusy ▸ h.busy, fun h => ⟨hbounded, hbusy ▸ h⟩⟩
  rw [hjust_iff]
  rcases busy_act hq with hsame | ⟨i, x, rfl, hx, hadded⟩
  · rw [hsame]
    refine iff_of_true hjust.busy ?_
    cases a with
    | timeout i =>
      obtain ⟨x, hx, rfl⟩ := Option.map_eq_some_iff.1 hq
      simp at hsame
    | _ => trivial
  · rw [hadded]
    have hoffered := hsound.seen x (List.mem_of_getElem? hx)
    constructor
    · intro h x' hx' ho
      obtain rfl : x' = x := by simpa [hx] using hx'.symm
      have := h x'.seen (by simp)
      simp [hoffered.2 ho] at this
    · intro h seen hmem
      rcases List.mem_append.1 hmem with hmem | hmem
      · exact hjust.busy seen hmem
      · obtain rfl := List.mem_singleton.1 hmem
        exact Bool.eq_false_iff.2 fun hseen => h x hx (hoffered.1 hseen)

/-- One connection: it is put back while a second call waits, which is sent away all the same. -/
theorem justified_fails :
    ¬ Steps.AllStates step Justified (new 1 1)
      [.pop, .enter, .connected true, .pop, .enter, .release 0, .putBack 0, .timeout 0] := by
  intro h
  obtain ⟨p, hp, hbusy⟩ := Option.map_eq_some_iff.1 (show (Steps.exec step (new 1 1)
    [.pop, .enter, .connected true, .pop, .enter, .release 0, .putBack 0, .timeout 0]).map (·.busy) = some [true] by decide)
  have := (Steps.allStates_iff.1 h _ p (List.prefix_refl _) hp).busy true (by simp [hbusy])
  simp at this

end ConnPool

end OhMyClaw
