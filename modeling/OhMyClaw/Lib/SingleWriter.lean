import Mathlib.Data.List.Nodup
import OhMyClaw.Lib.Steps

/-!
# An object behind a queue

One thread owns an object and does the commands of a queue, one after the other.  Any number of callers
put commands into the queue and wait for the replies; a caller may go away while it waits.  The thread may
end, in the middle of a command too: first its reply is lost, then the flag that says it is alive is lowered,
then the queue is closed and what is still in it is thrown away.  A caller reads the flag before it sends.
Commands that only read may also be done beside the thread, at any moment, on the object as it stands.

    Legal O s es t          the commands `es` lead the object from `s` to `t` and give the replies they record
    Linearized O s w        each command takes effect at one moment between its call and its answer, as if
                            there were no others
    linearized              so it is in every world the steps lead to

Time is the number of steps taken.
-/

namespace SingleWriter

universe u v x y

/-- What the thread owns.  `ω` is what the environment decides while a command is done: the time, a failure. -/
structure Object (σ : Type u) (κ : Type v) (ω : Type x) (ρ : Type y) where
  apply : σ → κ → ω → σ × ρ
  /-- The commands that may be done beside the thread. -/
  reads : κ → Bool
  readOnly : ∀ s c o, reads c = true → (apply s c o).1 = s

inductive Answer (ρ : Type y) where
  | ok (r : ρ)
  | dead
deriving DecidableEq, Repr

inductive Phase (ρ : Type y) where
  | asked
  /-- The thread was alive. -/
  | checked
  | sent
  | replied (r : ρ)
  /-- Whoever was to reply is gone. -/
  | lost
  | answered (a : Answer ρ)
  /-- The caller is gone. -/
  | dropped
deriving DecidableEq, Repr

structure Call (κ : Type v) (ρ : Type y) where
  cmd : κ
  phase : Phase ρ
  begun : Nat
  ended : Option Nat
deriving DecidableEq, Repr

variable {σ : Type u} {κ : Type v} {ω : Type x} {ρ : Type y}

def Call.new (c : κ) (now : Nat) : Call κ ρ := { cmd := c, phase := .asked, begun := now, ended := none }

inductive Thread where
  | running
  /-- Past its last command. -/
  | unwinding
  /-- The flag is down. -/
  | lowered
  | gone
deriving DecidableEq, Repr

/-- A command that was done, and the moment it was. -/
structure Done (κ : Type v) (ω : Type x) (ρ : Type y) where
  id : Nat
  cmd : κ
  env : ω
  reply : ρ
  time : Nat
deriving DecidableEq, Repr

structure World (σ : Type u) (κ : Type v) (ω : Type x) (ρ : Type y) where
  thread : Thread
  state : σ
  /-- The calls whose commands wait; `none` asks the thread to stop. -/
  queue : List (Option Nat)
  calls : List (Call κ ρ)
  clock : Nat
  /-- History: what was done, in order. -/
  log : List (Done κ ω ρ)
deriving DecidableEq, Repr

inductive Act (κ : Type v) (ω : Type x) where
  | call (c : κ)
  | check (i : Nat)
  | send (i : Nat)
  | receive (i : Nat)
  /-- The caller stops waiting. -/
  | drop (i : Nat)
  | read (i : Nat) (o : ω)
  | serve (o : ω)
  /-- The thread ends in the middle of a command; what the command did is committed or not. -/
  | crash (o : ω) (committed : Bool)
  | stop
  | lower
  | close
deriving DecidableEq, Repr

def start (s : σ) : World σ κ ω ρ :=
  { thread := .running, state := s, queue := [], calls := [], clock := 0, log := [] }

def Thread.alive : Thread → Bool
  | .running | .unwinding => true
  | .lowered | .gone => false

/-! ## Steps -/

/-- What a caller that still waits gets to see. -/
def Call.told (p : Phase ρ) (c : Call κ ρ) : Call κ ρ :=
  match c.phase with
  | .sent => { c with phase := p }
  | _ => c

namespace World

/-- A call that goes on. -/
def setPhase (i : Nat) (p : Phase ρ) (w : World σ κ ω ρ) : World σ κ ω ρ :=
  { w with calls := w.calls.modify i fun c => { c with phase := p } }

def answer (i : Nat) (a : Answer ρ) (w : World σ κ ω ρ) : World σ κ ω ρ :=
  { w with calls := w.calls.modify i fun c => { c with phase := .answered a, ended := some w.clock } }

def tell (i : Nat) (p : Phase ρ) (w : World σ κ ω ρ) : World σ κ ω ρ :=
  { w with calls := w.calls.modify i (Call.told p) }

def enqueue (job : Option Nat) (w : World σ κ ω ρ) : World σ κ ω ρ := { w with queue := w.queue ++ [job] }

def tick (w : World σ κ ω ρ) : World σ κ ω ρ := { w with clock := w.clock + 1 }

/-- The command of call `i` is done. -/
def perform (O : Object σ κ ω ρ) (i : Nat) (c : κ) (o : ω) (w : World σ κ ω ρ) : World σ κ ω ρ :=
  { w with
    state := (O.apply w.state c o).1
    log := w.log ++ [{ id := i, cmd := c, env := o, reply := (O.apply w.state c o).2, time := w.clock }] }

def phase? (w : World σ κ ω ρ) (i : Nat) : Option (Phase ρ) := w.calls[i]?.map (·.phase)

/-- The commands thrown away with the queue. -/
def lose : List (Option Nat) → World σ κ ω ρ → World σ κ ω ρ
  | [], w => w
  | some i :: jobs, w => lose jobs (w.tell i .lost)
  | none :: jobs, w => lose jobs w

end World

open World

/-- One step of a caller, of the thread or of a read beside it. -/
def move (O : Object σ κ ω ρ) (w : World σ κ ω ρ) : Act κ ω → Option (World σ κ ω ρ)
  | .call c => some { w with calls := w.calls ++ [.new c w.clock] }
  | .check i =>
    match w.phase? i with
    | some .asked => some (if w.thread.alive then w.setPhase i .checked else w.answer i .dead)
    | _ => none
  | .send i =>
    match w.phase? i with
    | some .checked =>
      match w.thread with
      | .gone => some (w.answer i .dead)
      | _ => some ((w.setPhase i .sent).enqueue (some i))
    | _ => none
  | .receive i =>
    match w.phase? i with
    | some (.replied r) => some (w.answer i (.ok r))
    | some .lost => some (w.answer i .dead)
    | _ => none
  | .drop i =>
    match w.phase? i with
    | some (.answered _) => none
    | some _ => some (w.setPhase i .dropped)
    | none => none
  | .read i o =>
    match w.calls[i]? with
    | some c =>
      match c.phase with
      | .asked => if O.reads c.cmd then some ((w.perform O i c.cmd o).setPhase i (.replied (O.apply w.state c.cmd o).2))
          else none
      | _ => none
    | none => none
  | .serve o =>
    match w.thread, w.queue with
    | .running, some i :: jobs =>
      w.calls[i]?.map fun c =>
        ({ w with queue := jobs }.perform O i c.cmd o).tell i (.replied (O.apply w.state c.cmd o).2)
    | .running, none :: jobs => some { w with queue := jobs, thread := .unwinding }
    | _, _ => none
  | .crash o committed =>
    match w.thread, w.queue with
    | .running, some i :: jobs =>
      w.calls[i]?.map fun c =>
        let w := { w with queue := jobs, thread := .unwinding }
        (if committed then w.perform O i c.cmd o else w).tell i .lost
    | _, _ => none
  | .stop => if w.thread = .gone then none else some (w.enqueue none)
  | .lower => if w.thread = .unwinding then some { w with thread := .lowered } else none
  | .close => if w.thread = .lowered then some { lose w.queue w with thread := .gone, queue := [] } else none

def step (O : Object σ κ ω ρ) (w : World σ κ ω ρ) (a : Act κ ω) : Option (World σ κ ω ρ) := (move O w a).map tick

/-! ## One command after the other -/

/-- The commands lead the object from one state to another, each with the reply it records. -/
def Legal (O : Object σ κ ω ρ) : σ → List (Done κ ω ρ) → σ → Prop
  | s, [], t => s = t
  | s, e :: es, t => (O.apply s e.cmd e.env).2 = e.reply ∧ Legal O (O.apply s e.cmd e.env).1 es t

theorem legal_append {O : Object σ κ ω ρ} {s t : σ} {es fs : List (Done κ ω ρ)} :
    Legal O s (es ++ fs) t ↔ ∃ u, Legal O s es u ∧ Legal O u fs t := by
  induction es generalizing s with
  | nil => simp [Legal]
  | cons e es ih => simp [Legal, ih, and_assoc]

/-- What every command keeps, a legal series of them keeps. -/
theorem Legal.keeps {O : Object σ κ ω ρ} {P : σ → Prop} (hP : ∀ s c o, P s → P (O.apply s c o).1)
    {s t : σ} {es : List (Done κ ω ρ)} (h : Legal O s es t) (hs : P s) : P t := by
  induction es generalizing s with
  | nil => exact h ▸ hs
  | cons e es ih => exact ih h.2 (hP s e.cmd e.env hs)

/-- Each command takes effect at one moment of its call, as if there were no others. -/
structure Linearized (O : Object σ κ ω ρ) (s : σ) (w : World σ κ ω ρ) : Prop where
  legal : Legal O s w.log w.state
  rising : w.log.Pairwise (·.time < ·.time)
  once : (w.log.map (·.id)).Nodup
  /-- Between the call and its answer. -/
  within : ∀ e ∈ w.log, ∃ c : Call κ ρ, w.calls[e.id]? = some c ∧ c.cmd = e.cmd ∧ c.begun < e.time ∧
    ∀ t, c.ended = some t → e.time < t
  /-- An answer is the reply of the command. -/
  replies : ∀ (i : Nat) (c : Call κ ρ) (r : ρ), w.calls[i]? = some c → c.phase = .answered (.ok r) → ∃ e ∈ w.log, e.id = i ∧ e.reply = r
  /-- A command that was answered with the end of the thread was not done, or nothing was written after it. -/
  unanswered : ∀ (i : Nat) (c : Call κ ρ), w.calls[i]? = some c → c.phase = .answered .dead → ∀ e ∈ w.log, e.id = i →
    ∀ e' ∈ w.log, e.time < e'.time → O.reads e'.cmd = true
  /-- Nobody waits for a thread that is gone. -/
  waits : ∀ (i : Nat) (c : Call κ ρ), w.calls[i]? = some c → c.phase = .sent → some i ∈ w.queue ∧ w.thread ≠ .gone

/-! ## The invariant -/

section Invariant

variable {O : Object σ κ ω ρ} {s₀ : σ} {w w' : World σ κ ω ρ} {i : Nat}

/-- The command of call `i` was done. -/
def Ran (w : World σ κ ω ρ) (i : Nat) : Prop := ∃ e ∈ w.log, e.id = i

/-- If the command of call `i` was done, the thread has ended and only reads came after it. -/
def Final (O : Object σ κ ω ρ) (w : World σ κ ω ρ) (i : Nat) : Prop :=
  ∀ e ∈ w.log, e.id = i → w.thread ≠ .running ∧ ∀ e' ∈ w.log, e.time < e'.time → O.reads e'.cmd = true

/-- Where a call stands, by its phase. -/
def Stands (O : Object σ κ ω ρ) (w : World σ κ ω ρ) (i : Nat) (c : Call κ ρ) : Prop :=
  match c.phase with
  | .asked | .checked => some i ∉ w.queue ∧ ¬ Ran w i ∧ c.ended = none
  | .sent => some i ∈ w.queue ∧ ¬ Ran w i ∧ c.ended = none
  | .replied r => some i ∉ w.queue ∧ (∃ e ∈ w.log, e.id = i ∧ e.reply = r) ∧ c.ended = none
  | .lost => some i ∉ w.queue ∧ Final O w i ∧ c.ended = none
  | .answered (.ok r) => some i ∉ w.queue ∧ (∃ e ∈ w.log, e.id = i ∧ e.reply = r) ∧
      ∃ t, c.ended = some t ∧ t < w.clock ∧ ∀ e ∈ w.log, e.id = i → e.time < t
  | .answered .dead => some i ∉ w.queue ∧ Final O w i ∧
      ∃ t, c.ended = some t ∧ t < w.clock ∧ ∀ e ∈ w.log, e.id = i → e.time < t
  | .dropped => (some i ∈ w.queue → ¬ Ran w i) ∧ c.ended = none

structure Inv (O : Object σ κ ω ρ) (s₀ : σ) (w : World σ κ ω ρ) : Prop where
  legal : Legal O s₀ w.log w.state
  rising : w.log.Pairwise (·.time < ·.time)
  past : ∀ e ∈ w.log, e.time < w.clock
  once : (w.log.map (·.id)).Nodup
  jobs : (w.queue.filterMap id).Nodup
  known : ∀ i, some i ∈ w.queue → ∃ c : Call κ ρ, w.calls[i]? = some c ∧ (c.phase = .sent ∨ c.phase = .dropped)
  source : ∀ e ∈ w.log, ∃ c : Call κ ρ, w.calls[e.id]? = some c ∧ c.cmd = e.cmd ∧ c.begun < e.time
  begun : ∀ (i : Nat) (c : Call κ ρ), w.calls[i]? = some c → c.begun < w.clock
  stands : ∀ (i : Nat) (c : Call κ ρ), w.calls[i]? = some c → Stands O w i c
  gone : w.thread = .gone → w.queue = []

theorem inv_start (s : σ) : Inv O s (start s) where
  legal := rfl
  rising := List.Pairwise.nil
  past := by simp [start]
  once := by simp [start]
  jobs := by simp [start]
  known := by simp [start]
  source := by simp [start]
  begun := by simp [start]
  stands := by simp [start]
  gone := by simp [start]

/-- What happens elsewhere leaves a call where it stands. -/
theorem Stands.keep {c : Call κ ρ} (h : Stands O w i c) {m : List (Done κ ω ρ)} (hlog : w'.log = w.log ++ m)
    (hqueue : some i ∈ w'.queue ↔ some i ∈ w.queue) (hclock : w.clock ≤ w'.clock)
    (hthread : w'.thread = .running → w.thread = .running) (hmore : ∀ e ∈ m, e.id ≠ i)
    (hreads : w.thread ≠ .running → ∀ e ∈ m, O.reads e.cmd = true) : Stands O w' i c := by
  have hmem (e : Done κ ω ρ) (hid : e.id = i) : e ∈ w'.log ↔ e ∈ w.log := by
    rw [hlog, List.mem_append]
    constructor
    · rintro (he | he)
      · exact he
      · exact absurd hid (hmore e he)
    · exact Or.inl
  have hran : Ran w' i ↔ Ran w i := by
    constructor
    · rintro ⟨e, he, hid⟩
      exact ⟨e, (hmem e hid).1 he, hid⟩
    · rintro ⟨e, he, hid⟩
      exact ⟨e, (hmem e hid).2 he, hid⟩
  have hfinal (hf : Final O w i) : Final O w' i := by
    intro e he hid
    obtain ⟨hstopped, hafter⟩ := hf e ((hmem e hid).1 he) hid
    refine ⟨fun hrun => hstopped (hthread hrun), fun e' he' hlt => ?_⟩
    rw [hlog, List.mem_append] at he'
    rcases he' with he' | he'
    · exact hafter e' he' hlt
    · exact hreads hstopped e' he'
  have hreply (r : ρ) (hr : ∃ e ∈ w.log, e.id = i ∧ e.reply = r) : ∃ e ∈ w'.log, e.id = i ∧ e.reply = r := by
    obtain ⟨e, he, hid, hr⟩ := hr
    exact ⟨e, (hmem e hid).2 he, hid, hr⟩
  have hended {t : Nat} (ht : c.ended = some t ∧ t < w.clock ∧ ∀ e ∈ w.log, e.id = i → e.time < t) :
      ∃ t, c.ended = some t ∧ t < w'.clock ∧ ∀ e ∈ w'.log, e.id = i → e.time < t :=
    ⟨t, ht.1, by omega, fun e he hid => ht.2.2 e ((hmem e hid).1 he) hid⟩
  unfold Stands at h ⊢
  rw [hqueue, hran]
  split at h
  · exact h
  · exact h
  · exact h
  · exact ⟨h.1, hreply _ h.2.1, h.2.2⟩
  · exact ⟨h.1, hfinal h.2.1, h.2.2⟩
  · exact ⟨h.1, hreply _ h.2.1, hended h.2.2.choose_spec⟩
  · exact ⟨h.1, hfinal h.2.1, hended h.2.2.choose_spec⟩
  · exact h

/-- A step: what is done in it is done now, calls go on, and none is forgotten. -/
theorem Inv.next (h : Inv O s₀ w) {m : List (Done κ ω ρ)} (hlog : w'.log = w.log ++ m)
    (hlegal : Legal O w.state m w'.state) (hone : m.length ≤ 1)
    (hmore : ∀ e ∈ m, e.time = w.clock ∧ ¬ Ran w e.id ∧
      ∃ c : Call κ ρ, w.calls[e.id]? = some c ∧ c.cmd = e.cmd)
    (hclock : w'.clock = w.clock + 1) (hjobs : (w'.queue.filterMap id).Nodup)
    (hknown : ∀ j, some j ∈ w'.queue → ∃ c : Call κ ρ, w'.calls[j]? = some c ∧ (c.phase = .sent ∨ c.phase = .dropped))
    (hcalls : ∀ (j : Nat) (c : Call κ ρ), w.calls[j]? = some c →
      ∃ c' : Call κ ρ, w'.calls[j]? = some c' ∧ c'.cmd = c.cmd ∧ c'.begun = c.begun)
    (hbegun : ∀ (j : Nat) (c : Call κ ρ), w'.calls[j]? = some c → c.begun ≤ w.clock)
    (hstands : ∀ (j : Nat) (c : Call κ ρ), w'.calls[j]? = some c → Stands O w' j c)
    (hgone : w'.thread = .gone → w'.queue = []) : Inv O s₀ w' where
  legal := hlog ▸ legal_append.2 ⟨w.state, h.legal, hlegal⟩
  rising := by
    rw [hlog, List.pairwise_append]
    refine ⟨h.rising, ?_, fun e he e' he' => (hmore e' he').1 ▸ h.past e he⟩
    cases m with
    | nil => exact List.Pairwise.nil
    | cons e m =>
      obtain rfl : m = [] := List.length_eq_zero_iff.1 (by simpa using hone)
      exact List.pairwise_singleton _ e
  past e he := by
    rw [hlog, List.mem_append] at he
    rcases he with he | he
    · have := h.past e he
      omega
    · have := (hmore e he).1
      omega
  once := by
    rw [hlog, List.map_append]
    refine List.Nodup.append h.once ?_ ?_
    · cases m with
      | nil => exact List.nodup_nil
      | cons e m =>
        obtain rfl : m = [] := List.length_eq_zero_iff.1 (by simpa using hone)
        exact List.nodup_singleton _
    · intro j hj hj'
      obtain ⟨e, he, rfl⟩ := List.mem_map.1 hj
      obtain ⟨e', he', hid⟩ := List.mem_map.1 hj'
      exact (hmore e' he').2.1 ⟨e, he, hid.symm⟩
  jobs := hjobs
  known := hknown
  source e he := by
    rw [hlog, List.mem_append] at he
    rcases he with he | he
    · obtain ⟨c, hc, hcmd, hlt⟩ := h.source e he
      obtain ⟨c', hc', hcmd', hbegun'⟩ := hcalls _ c hc
      exact ⟨c', hc', hcmd'.trans hcmd, hbegun' ▸ hlt⟩
    · obtain ⟨htime, -, c, hc, hcmd⟩ := hmore e he
      obtain ⟨c', hc', hcmd', hbegun'⟩ := hcalls _ c hc
      exact ⟨c', hc', hcmd'.trans hcmd, by rw [hbegun', htime]; exact h.begun _ c hc⟩
  begun j c hc := by
    have := hbegun j c hc
    omega
  stands := hstands
  gone := hgone

/-- A step in which no call begins: `g` is what becomes of each. -/
theorem Inv.advance (h : Inv O s₀ w) {m : List (Done κ ω ρ)} (hlog : w'.log = w.log ++ m)
    (hlegal : Legal O w.state m w'.state) (hone : m.length ≤ 1)
    (hmore : ∀ e ∈ m, e.time = w.clock ∧ ¬ Ran w e.id ∧
      ∃ c : Call κ ρ, w.calls[e.id]? = some c ∧ c.cmd = e.cmd)
    (hclock : w'.clock = w.clock + 1) (hjobs : (w'.queue.filterMap id).Nodup) {g : Nat → Call κ ρ → Call κ ρ}
    (hget : ∀ j : Nat, w'.calls[j]? = w.calls[j]?.map (g j))
    (hhead : ∀ j c, (g j c).cmd = c.cmd ∧ (g j c).begun = c.begun)
    (hknown : ∀ j, some j ∈ w'.queue →
      ∃ c : Call κ ρ, w.calls[j]? = some c ∧ ((g j c).phase = .sent ∨ (g j c).phase = .dropped))
    (hstands : ∀ (j : Nat) (c : Call κ ρ), w.calls[j]? = some c → Stands O w' j (g j c))
    (hgone : w'.thread = .gone → w'.queue = []) : Inv O s₀ w' := by
  refine h.next hlog hlegal hone hmore hclock hjobs ?_ ?_ ?_ ?_ hgone
  · intro j hj
    obtain ⟨c, hc, hp⟩ := hknown j hj
    exact ⟨g j c, by rw [hget, hc]; rfl, hp⟩
  · intro j c hc
    exact ⟨g j c, by rw [hget, hc]; rfl, hhead j c⟩
  · intro j c hc
    rw [hget, Option.map_eq_some_iff] at hc
    obtain ⟨c₀, hc₀, rfl⟩ := hc
    rw [(hhead j c₀).2]
    exact Nat.le_of_lt (h.begun j c₀ hc₀)
  · intro j c hc
    rw [hget, Option.map_eq_some_iff] at hc
    obtain ⟨c₀, hc₀, rfl⟩ := hc
    exact hstands j c₀ hc₀

/-- Nothing happens to any call. -/
theorem Inv.idle (h : Inv O s₀ w) (hw : w'.log = w.log ∧ w'.state = w.state ∧ w'.calls = w.calls)
    (hclock : w'.clock = w.clock + 1) (hqueue : w'.queue.filterMap id = w.queue.filterMap id)
    (hthread : w'.thread = .running → w.thread = .running) (hgone : w'.thread = .gone → w'.queue = []) :
    Inv O s₀ w' := by
  obtain ⟨hlog, hstate, hcalls⟩ := hw
  have hmem (j : Nat) : some j ∈ w'.queue ↔ some j ∈ w.queue := by
    have (q : List (Option Nat)) : some j ∈ q ↔ j ∈ q.filterMap id := by simp
    rw [this, this, hqueue]
  refine h.advance (m := []) (g := fun _ c => c) (by simpa using hlog) hstate.symm (by simp) (by simp) hclock
    (hqueue ▸ h.jobs) (fun j => by simp [hcalls]) (fun _ _ => ⟨rfl, rfl⟩) ?_ ?_ hgone
  · exact fun j hj => h.known j ((hmem j).1 hj)
  · intro j c hc
    exact (h.stands j c hc).keep (m := []) (by simpa using hlog) (hmem j) (by omega) hthread (by simp) (by simp)

/-- A call that goes on while nothing is done. -/
theorem Inv.modify (h : Inv O s₀ w) {c : Call κ ρ} (hi : w.calls[i]? = some c) {f : Call κ ρ → Call κ ρ}
    (hf : ∀ c, (f c).cmd = c.cmd ∧ (f c).begun = c.begun)
    (hqueue : w'.queue = w.queue ∨ w'.queue = w.queue ++ [some i] ∧ some i ∉ w.queue)
    (hknown : some i ∈ w'.queue → (f c).phase = .sent ∨ (f c).phase = .dropped)
    (hw : w'.thread = w.thread ∧ w'.state = w.state ∧ w'.log = w.log ∧ w'.clock = w.clock + 1)
    (hcalls : w'.calls = w.calls.modify i f) (hgone : w.thread = .gone → w'.queue = w.queue)
    (hstands : Stands O w' i (f c)) : Inv O s₀ w' := by
  obtain ⟨hthread, hstate, hlog, hclock⟩ := hw
  have hother {j : Nat} (hj : j ≠ i) : some j ∈ w'.queue ↔ some j ∈ w.queue := by
    rcases hqueue with hq | ⟨hq, -⟩
    · rw [hq]
    · simp [hq, hj]
  have hget (j : Nat) : w'.calls[j]? = w.calls[j]?.map fun c => if i = j then f c else c := by
    rw [hcalls, List.getElem?_modify]
    rfl
  refine h.advance (m := []) (by simpa using hlog) hstate.symm (by simp) (by simp) hclock ?_ hget ?_ ?_ ?_ ?_
  · rcases hqueue with hq | ⟨hq, hfresh⟩
    · exact hq ▸ h.jobs
    · rw [hq, List.filterMap_append]
      refine List.Nodup.append h.jobs (List.nodup_singleton i) ?_
      simpa using hfresh
  · intro j c'
    split
    · exact hf c'
    · exact ⟨rfl, rfl⟩
  · intro j hj
    by_cases hji : i = j
    · subst hji
      exact ⟨c, hi, by rw [if_pos rfl]; exact hknown hj⟩
    · obtain ⟨c', hc', hp⟩ := h.known j ((hother (Ne.symm hji)).1 hj)
      exact ⟨c', hc', by rwa [if_neg hji]⟩
  · intro j c' hc'
    by_cases hji : i = j
    · subst hji
      obtain rfl := Option.some.inj (hi.symm.trans hc')
      rwa [if_pos rfl]
    · rw [if_neg hji]
      exact (h.stands j c' hc').keep (m := []) (by simpa using hlog) (hother (Ne.symm hji)) (by omega)
        (fun hrun => hthread ▸ hrun) (by simp) (by simp)
  · intro hg
    rw [hthread] at hg
    rw [hgone hg]
    exact h.gone hg

theorem told_sent {p : Phase ρ} {c : Call κ ρ} (h : c.phase = .sent) : Call.told p c = { c with phase := p } := by
  unfold Call.told
  rw [h]

theorem told_ne {p : Phase ρ} {c : Call κ ρ} (h : c.phase ≠ .sent) : Call.told p c = c := by
  unfold Call.told
  split
  · next hs => exact absurd hs h
  · rfl

theorem told_head (p : Phase ρ) (c : Call κ ρ) : (Call.told p c).cmd = c.cmd ∧ (Call.told p c).begun = c.begun := by
  unfold Call.told
  split <;> exact ⟨rfl, rfl⟩

/-- A command that waits was not done. -/
theorem not_ran_queued {c : Call κ ρ} (h : Stands O w i c) (hc : c.phase = .sent ∨ c.phase = .dropped)
    (hq : some i ∈ w.queue) : ¬ Ran w i := by
  unfold Stands at h
  rcases hc with hc | hc
  · rw [hc] at h
    exact h.2.1
  · rw [hc] at h
    exact h.1 hq

/-- A call whose command has left the queue stands as its caller was told, if there is still one. -/
theorem Stands.told {c : Call κ ρ} (h : Stands O w i c) (hc : c.phase = .sent ∨ c.phase = .dropped)
    (hout : some i ∉ w'.queue) {p : Phase ρ}
    (hp : (∃ e ∈ w'.log, e.id = i ∧ p = .replied e.reply) ∨ p = .lost ∧ Final O w' i) :
    Stands O w' i (Call.told p c) := by
  unfold Stands at h
  rcases hc with hc | hc
  · rw [hc] at h
    rw [told_sent hc]
    rcases hp with ⟨e, he, hid, rfl⟩ | ⟨rfl, hfinal⟩
    · exact ⟨hout, ⟨e, he, hid, rfl⟩, h.2.2⟩
    · exact ⟨hout, hfinal, h.2.2⟩
  · rw [hc] at h
    rw [told_ne (by simp [hc])]
    unfold Stands
    rw [hc]
    exact ⟨fun hq => absurd hq hout, h.2⟩

theorem not_ran_final (h : ¬ Ran w i) : Final O w i := fun e he hid => absurd ⟨e, he, hid⟩ h

/-- The thread takes the first command off the queue: it is done and replied to, or the thread ends with it. -/
theorem Inv.take (h : Inv O s₀ w) (hrun : w.thread = .running) {jobs : List (Option Nat)}
    (hqueue : w.queue = some i :: jobs) {c : Call κ ρ} (hi : w.calls[i]? = some c) {m : List (Done κ ω ρ)}
    {p : Phase ρ} (hlog : w'.log = w.log ++ m) (hlegal : Legal O w.state m w'.state)
    (hmore : ∀ e ∈ m, e.time = w.clock ∧ e.id = i ∧ e.cmd = c.cmd) (hone : m.length ≤ 1)
    (hclock : w'.clock = w.clock + 1) (hjobs : w'.queue = jobs) (hcalls : w'.calls = w.calls.modify i (Call.told p))
    (hend : (∃ e, m = [e] ∧ p = .replied e.reply ∧ w'.thread = .running) ∨ p = .lost ∧ w'.thread = .unwinding) :
    Inv O s₀ w' := by
  have hnodup : i ∉ jobs.filterMap id ∧ (jobs.filterMap id).Nodup := by
    have := h.jobs
    rw [hqueue] at this
    exact List.nodup_cons.1 this
  have hgone : some i ∉ w'.queue := by
    rw [hjobs]
    intro hmem
    exact hnodup.1 (List.mem_filterMap.2 ⟨some i, hmem, rfl⟩)
  have hother {j : Nat} (hj : j ≠ i) : some j ∈ w'.queue ↔ some j ∈ w.queue := by
    rw [hjobs, hqueue]
    simp [hj]
  have hget (j : Nat) : w'.calls[j]? = w.calls[j]?.map fun c => if i = j then Call.told p c else c := by
    rw [hcalls, List.getElem?_modify]
    rfl
  have hphase : c.phase = .sent ∨ c.phase = .dropped := by
    obtain ⟨c', hc', hp⟩ := h.known i (by rw [hqueue]; exact List.mem_cons_self)
    rwa [Option.some.inj (hi.symm.trans hc')]
  have hin : some i ∈ w.queue := by
    rw [hqueue]
    exact List.mem_cons_self
  have hran : ¬ Ran w i := not_ran_queued (h.stands i c hi) hphase hin
  have hthread : w'.thread ≠ .gone := by
    rcases hend with ⟨_, _, _, ht⟩ | ⟨_, ht⟩ <;> simp [ht]
  have hlast (hstop : w'.thread ≠ .running) : Final O w' i := by
    refine fun e he hid => ⟨hstop, fun e' he' hlt => ?_⟩
    -- the command that was cut short is the last thing done
    rw [hlog, List.mem_append] at he he'
    have he : e ∈ m := he.resolve_left fun he => hran ⟨e, he, hid⟩
    have htime := (hmore e he).1
    rcases he' with he' | he'
    · have := h.past e' he'
      omega
    · have := (hmore e' he').1
      omega
  refine h.advance hlog hlegal hone ?_ hclock ?_ hget ?_ ?_ ?_ (fun hg => absurd hg hthread)
  · intro e he
    obtain ⟨htime, hid, hcmd⟩ := hmore e he
    exact ⟨htime, hid ▸ hran, c, hid ▸ hi, hcmd.symm⟩
  · exact hjobs ▸ hnodup.2
  · intro j c'
    split
    · exact told_head p c'
    · exact ⟨rfl, rfl⟩
  · intro j hj
    have hji : j ≠ i := fun hji => hgone (hji ▸ hj)
    obtain ⟨c', hc', hp⟩ := h.known j ((hother hji).1 hj)
    exact ⟨c', hc', by rwa [if_neg (Ne.symm hji)]⟩
  · intro j c' hc'
    by_cases hji : i = j
    · subst hji
      obtain rfl := Option.some.inj (hi.symm.trans hc')
      rw [if_pos rfl]
      refine (h.stands i c hi).told hphase hgone ?_
      rcases hend with ⟨e, rfl, rfl, -⟩ | ⟨rfl, ht⟩
      · exact .inl ⟨e, by rw [hlog]; simp, (hmore e List.mem_cons_self).2.1, rfl⟩
      · exact .inr ⟨rfl, hlast (by simp [ht])⟩
    · rw [if_neg hji]
      refine (h.stands j c' hc').keep hlog (hother (Ne.symm hji)) (by omega) (fun _ => hrun) ?_
        (fun hstop => absurd hrun hstop)
      intro e he
      rw [(hmore e he).2.1]
      exact hji

/-- The commands thrown away: their callers learn that there is no reply. -/
theorem getElem?_lose (jobs : List (Option Nat)) (w : World σ κ ω ρ) (j : Nat) :
    (lose jobs w).calls[j]? = w.calls[j]?.map fun c => if some j ∈ jobs then Call.told .lost c else c := by
  induction jobs generalizing w with
  | nil => simp [lose]
  | cons job jobs ih =>
    cases job with
    | none =>
      rw [lose, ih]
      simp
    | some i =>
      rw [lose, ih, World.tell]
      dsimp only
      rw [List.getElem?_modify]
      cases w.calls[j]? with
      | none => rfl
      | some c =>
        by_cases hji : i = j
        · subst hji
          by_cases hs : c.phase = .sent
          · have htold := told_sent (p := .lost) hs
            simp [htold, told_ne (p := .lost) (c := { c with phase := .lost })]
          · simp [told_ne hs]
        · simp [hji, Ne.symm hji]

theorem lose_rest (jobs : List (Option Nat)) (w : World σ κ ω ρ) :
    (lose jobs w).log = w.log ∧ (lose jobs w).state = w.state ∧ (lose jobs w).clock = w.clock := by
  induction jobs generalizing w with
  | nil => exact ⟨rfl, rfl, rfl⟩
  | cons job jobs ih =>
    cases job with
    | none => exact ih w
    | some i => exact ih (w.tell i .lost)

theorem Inv.close (h : Inv O s₀ w) :
    Inv O s₀ { lose w.queue w with thread := .gone, queue := [], clock := w.clock + 1 } := by
  obtain ⟨hlog, hstate, -⟩ := lose_rest w.queue w
  have hget := getElem?_lose w.queue w
  refine h.advance (m := []) (by simpa using hlog) hstate.symm (by simp) (by simp) rfl (by simp) hget ?_ (by simp) ?_
    (fun _ => rfl)
  · intro j c
    split
    · exact told_head _ c
    · exact ⟨rfl, rfl⟩
  · intro j c hc
    have hst := h.stands j c hc
    by_cases hq : some j ∈ w.queue
    · rw [if_pos hq]
      obtain ⟨c', hc', hp⟩ := h.known j hq
      obtain rfl := Option.some.inj (hc.symm.trans hc')
      have hran := not_ran_queued hst hp hq
      exact hst.told hp (by simp) (.inr ⟨rfl, fun e he hid => absurd ⟨e, hlog ▸ he, hid⟩ hran⟩)
    · rw [if_neg hq]
      exact hst.keep (m := []) (by simpa using hlog) (by simpa using hq) (Nat.le_succ _)
        (fun hrun => absurd hrun (by simp)) (by simp) (by simp)

theorem phase_eq_some {p : Phase ρ} (h : w.phase? i = some p) : ∃ c : Call κ ρ, w.calls[i]? = some c ∧ c.phase = p :=
  Option.map_eq_some_iff.1 h

/-- A caller that is answered. -/
theorem Inv.answer (h : Inv O s₀ w) {c : Call κ ρ} (hi : w.calls[i]? = some c) {a : Answer ρ}
    (hout : some i ∉ w.queue)
    (ha : match a with
      | .ok r => ∃ e ∈ w.log, e.id = i ∧ e.reply = r
      | .dead => Final O w i) : Inv O s₀ (w.answer i a).tick := by
  refine h.modify hi (f := fun c => { c with phase := .answered a, ended := some w.clock }) (fun _ => ⟨rfl, rfl⟩)
    (.inl rfl) (fun hq => absurd hq hout) ⟨rfl, rfl, rfl, rfl⟩ rfl (fun _ => rfl) ?_
  have hended : ∃ t, some w.clock = some t ∧ t < w.clock + 1 ∧ ∀ e ∈ w.log, e.id = i → e.time < t :=
    ⟨w.clock, rfl, by omega, fun e he _ => h.past e he⟩
  cases a with
  | ok r => exact ⟨hout, ha, hended⟩
  | dead => exact ⟨hout, ha, hended⟩

/-- A command that only reads is done beside the thread. -/
theorem Inv.read (h : Inv O s₀ w) {c : Call κ ρ} (hi : w.calls[i]? = some c) (hasked : c.phase = .asked)
    (hreads : O.reads c.cmd = true) (o : ω) :
    Inv O s₀ ((w.perform O i c.cmd o).setPhase i (.replied (O.apply w.state c.cmd o).2)).tick := by
  have hst := h.stands i c hi
  unfold Stands at hst
  rw [hasked] at hst
  have hget (j : Nat) :
      (w.calls.modify i fun d => { d with phase := .replied (O.apply w.state c.cmd o).2 })[j]? =
        w.calls[j]?.map fun d => if i = j then { d with phase := .replied (O.apply w.state c.cmd o).2 } else d := by
    rw [List.getElem?_modify]
    rfl
  have hknown {j : Nat} (hj : some j ∈ w.queue) : i ≠ j := by
    rintro rfl
    exact hst.1 hj
  refine h.advance (m := [{ id := i, cmd := c.cmd, env := o, reply := (O.apply w.state c.cmd o).2, time := w.clock }])
    rfl ⟨rfl, rfl⟩ (by simp) ?_ rfl h.jobs hget ?_ ?_ ?_ h.gone
  · intro e he
    obtain rfl := List.mem_singleton.1 he
    exact ⟨rfl, hst.2.1, c, hi, rfl⟩
  · intro j c'
    split
    · exact ⟨rfl, rfl⟩
    · exact ⟨rfl, rfl⟩
  · intro j hj
    obtain ⟨c', hc', hp⟩ := h.known j hj
    exact ⟨c', hc', by rwa [if_neg (hknown hj)]⟩
  · intro j c' hc'
    by_cases hji : i = j
    · subst hji
      rw [if_pos rfl]
      obtain rfl := Option.some.inj (hi.symm.trans hc')
      exact ⟨hst.1, ⟨_, List.mem_append_right _ List.mem_cons_self, rfl, rfl⟩, hst.2.2⟩
    · rw [if_neg hji]
      refine (h.stands j c' hc').keep rfl Iff.rfl (Nat.le_succ _) id ?_ fun _ => ?_
      · intro e he
        obtain rfl := List.mem_singleton.1 he
        exact hji
      · intro e he
        obtain rfl := List.mem_singleton.1 he
        exact hreads

/-- A call that begins waits for nobody yet. -/
theorem Inv.call (h : Inv O s₀ w) (c : κ) :
    Inv O s₀ ({ w with calls := w.calls ++ [.new c w.clock] } : World σ κ ω ρ).tick := by
  have hold {j : Nat} (hj : some j ∈ w.queue ∨ Ran w j) : j ≠ w.calls.length := by
    rintro rfl
    rcases hj with hj | ⟨e, he, hid⟩
    · obtain ⟨c', hc', -⟩ := h.known _ hj
      simp at hc'
    · obtain ⟨c', hc', -⟩ := h.source e he
      simp [hid] at hc'
  have hget {j : Nat} {c' : Call κ ρ} (hc' : w.calls[j]? = some c') :
      (w.calls ++ [.new c w.clock])[j]? = some c' :=
    (List.getElem?_append_left (List.getElem?_eq_some_iff.1 hc').1).trans hc'
  have hget' {j : Nat} {c' : Call κ ρ} (hc' : (w.calls ++ [.new c w.clock])[j]? = some c') :
      w.calls[j]? = some c' ∨ j = w.calls.length ∧ c' = .new c w.clock := by
    rw [List.getElem?_append] at hc'
    split at hc'
    · exact .inl hc'
    · rw [List.getElem?_singleton] at hc'
      split at hc'
      · exact .inr ⟨by omega, (Option.some.inj hc').symm⟩
      · cases hc'
  refine h.next (m := []) (by simp [tick]) rfl (by simp) (by simp) rfl h.jobs ?_ ?_ ?_ ?_ h.gone
  · intro j hj
    obtain ⟨c', hc', hp⟩ := h.known j hj
    exact ⟨c', hget hc', hp⟩
  · exact fun j c' hc' => ⟨c', hget hc', rfl, rfl⟩
  · intro j c' hc'
    rcases hget' hc' with hc' | ⟨-, rfl⟩
    · exact Nat.le_of_lt (h.begun j c' hc')
    · exact Nat.le_refl _
  · intro j c' hc'
    rcases hget' hc' with hc' | ⟨rfl, rfl⟩
    · exact (h.stands j c' hc').keep (m := []) (by simp [tick]) Iff.rfl (Nat.le_succ _) id (by simp) (by simp)
    · exact ⟨fun hq => hold (.inl hq) rfl, fun hr => hold (.inr hr) rfl, rfl⟩

/-- Before its command is sent, a call has nothing in the queue and nothing done. -/
theorem Inv.early (h : Inv O s₀ w) {p : Phase ρ} (hp : w.phase? i = some p) (hearly : p = .asked ∨ p = .checked) :
    ∃ c : Call κ ρ, w.calls[i]? = some c ∧ c.phase = p ∧ some i ∉ w.queue ∧ ¬ Ran w i ∧ c.ended = none := by
  obtain ⟨c, hi, hc⟩ := phase_eq_some hp
  have hst := h.stands i c hi
  unfold Stands at hst
  rw [hc] at hst
  rcases hearly with rfl | rfl
  · exact ⟨c, hi, hc, hst⟩
  · exact ⟨c, hi, hc, hst⟩

theorem Inv.check (h : Inv O s₀ w) (hp : w.phase? i = some .asked) : Inv O s₀ (w.setPhase i .checked).tick := by
  obtain ⟨c, hi, -, hst⟩ := h.early hp (.inl rfl)
  exact h.modify hi (f := fun c => { c with phase := .checked }) (fun _ => ⟨rfl, rfl⟩) (.inl rfl)
    (fun hq => absurd hq hst.1) ⟨rfl, rfl, rfl, rfl⟩ rfl (fun _ => rfl) hst

theorem Inv.send (h : Inv O s₀ w) (hp : w.phase? i = some .checked) (hopen : w.thread ≠ .gone) :
    Inv O s₀ ((w.setPhase i .sent).enqueue (some i)).tick := by
  obtain ⟨c, hi, -, hst⟩ := h.early hp (.inr rfl)
  exact h.modify hi (f := fun c => { c with phase := .sent }) (fun _ => ⟨rfl, rfl⟩) (.inr ⟨rfl, hst.1⟩)
    (fun _ => .inl rfl) ⟨rfl, rfl, rfl, rfl⟩ rfl (fun hg => absurd hg hopen)
    ⟨List.mem_append_right _ List.mem_cons_self, hst.2⟩

/-- A caller that has sent nothing learns that the thread is gone. -/
theorem Inv.refuse (h : Inv O s₀ w) {p : Phase ρ} (hp : w.phase? i = some p) (hearly : p = .asked ∨ p = .checked) :
    Inv O s₀ (w.answer i .dead).tick := by
  obtain ⟨c, hi, -, hout, hran, -⟩ := h.early hp hearly
  exact h.answer hi hout (not_ran_final hran)

theorem Inv.receive (h : Inv O s₀ w) {r : ρ} (hp : w.phase? i = some (.replied r)) :
    Inv O s₀ (w.answer i (.ok r)).tick := by
  obtain ⟨c, hi, hc⟩ := phase_eq_some hp
  have hst := h.stands i c hi
  unfold Stands at hst
  rw [hc] at hst
  exact h.answer hi hst.1 hst.2.1

theorem Inv.despair (h : Inv O s₀ w) (hp : w.phase? i = some .lost) : Inv O s₀ (w.answer i .dead).tick := by
  obtain ⟨c, hi, hc⟩ := phase_eq_some hp
  have hst := h.stands i c hi
  unfold Stands at hst
  rw [hc] at hst
  exact h.answer hi hst.1 hst.2.1

/-- A caller goes away; what it sent stays in the queue. -/
theorem Inv.drop (h : Inv O s₀ w) {p : Phase ρ} (hp : w.phase? i = some p) (hopen : ∀ a, p ≠ .answered a) :
    Inv O s₀ (w.setPhase i .dropped).tick := by
  obtain ⟨c, hi, hc⟩ := phase_eq_some hp
  have hst := h.stands i c hi
  refine h.modify hi (f := fun c => { c with phase := .dropped }) (fun _ => ⟨rfl, rfl⟩) (.inl rfl)
    (fun _ => .inr rfl) ⟨rfl, rfl, rfl, rfl⟩ rfl (fun _ => rfl) ?_
  unfold Stands at hst
  rw [hc] at hst
  cases p with
  | asked => exact ⟨fun hq => absurd hq hst.1, hst.2.2⟩
  | checked => exact ⟨fun hq => absurd hq hst.1, hst.2.2⟩
  | sent => exact ⟨fun _ => hst.2.1, hst.2.2⟩
  | replied r => exact ⟨fun hq => absurd hq hst.1, hst.2.2⟩
  | lost => exact ⟨fun hq => absurd hq hst.1, hst.2.2⟩
  | answered a => exact absurd rfl (hopen a)
  | dropped => exact hst

/-- The thread does the first command of the queue and replies. -/
theorem Inv.serve (h : Inv O s₀ w) (hrun : w.thread = .running) {jobs : List (Option Nat)}
    (hqueue : w.queue = some i :: jobs) {c : Call κ ρ} (hi : w.calls[i]? = some c) (o : ω) :
    Inv O s₀ (({ w with queue := jobs } : World σ κ ω ρ).perform O i c.cmd o
      |>.tell i (.replied (O.apply w.state c.cmd o).2)).tick :=
  h.take hrun hqueue hi rfl ⟨rfl, rfl⟩ (by simp) (by simp) rfl rfl rfl (.inl ⟨_, rfl, rfl, hrun⟩)

/-- The thread ends in the middle of the first command of the queue. -/
theorem Inv.crash (h : Inv O s₀ w) (hrun : w.thread = .running) {jobs : List (Option Nat)}
    (hqueue : w.queue = some i :: jobs) {c : Call κ ρ} (hi : w.calls[i]? = some c) (o : ω) (committed : Bool) :
    Inv O s₀ (((if committed then ({ w with queue := jobs, thread := .unwinding } : World σ κ ω ρ).perform O i c.cmd o
      else { w with queue := jobs, thread := .unwinding }).tell i .lost).tick) := by
  cases committed with
  | true => exact h.take hrun hqueue hi rfl ⟨rfl, rfl⟩ (by simp) (by simp) rfl rfl rfl (.inr ⟨rfl, rfl⟩)
  | false =>
    exact h.take (m := []) hrun hqueue hi (by simp [World.tell, tick]) rfl (by simp) (by simp) rfl rfl rfl
      (.inr ⟨rfl, rfl⟩)

theorem inv_move {a : Act κ ω} (h : Inv O s₀ w) (hmove : move O w a = some w') : Inv O s₀ w'.tick := by
  cases a with
  | call c =>
    obtain rfl := Option.some.inj hmove
    exact h.call c
  | check i =>
    simp only [move] at hmove
    split at hmove
    · next hp =>
      obtain rfl := Option.some.inj hmove
      split
      · exact h.check hp
      · exact h.refuse hp (.inl rfl)
    · cases hmove
  | send i =>
    simp only [move] at hmove
    split at hmove
    · next hp =>
      split at hmove
      · obtain rfl := Option.some.inj hmove
        exact h.refuse hp (.inr rfl)
      · next hopen =>
        obtain rfl := Option.some.inj hmove
        exact h.send hp hopen
    · cases hmove
  | receive i =>
    simp only [move] at hmove
    split at hmove
    · next r hp =>
      obtain rfl := Option.some.inj hmove
      exact h.receive hp
    · next hp =>
      obtain rfl := Option.some.inj hmove
      exact h.despair hp
    · cases hmove
  | drop i =>
    simp only [move] at hmove
    split at hmove
    · cases hmove
    · next p hne hp =>
      obtain rfl := Option.some.inj hmove
      exact h.drop hp hne
    · cases hmove
  | read i o =>
    simp only [move] at hmove
    split at hmove
    · next c hi =>
      split at hmove
      · next hc =>
        split at hmove
        · next hreads =>
          obtain rfl := Option.some.inj hmove
          exact h.read hi hc hreads o
        · cases hmove
      · cases hmove
    · cases hmove
  | serve o =>
    simp only [move] at hmove
    split at hmove
    · next i jobs hrun hqueue =>
      obtain ⟨c, hi, rfl⟩ := Option.map_eq_some_iff.1 hmove
      exact h.serve hrun hqueue hi o
    · next jobs hrun hqueue =>
      obtain rfl := Option.some.inj hmove
      exact h.idle ⟨rfl, rfl, rfl⟩ rfl (by simp [tick, hqueue]) (fun _ => hrun) (by simp [tick])
    · cases hmove
  | crash o committed =>
    simp only [move] at hmove
    split at hmove
    · next i jobs hrun hqueue =>
      obtain ⟨c, hi, rfl⟩ := Option.map_eq_some_iff.1 hmove
      exact h.crash hrun hqueue hi o committed
    · cases hmove
  | stop =>
    simp only [move] at hmove
    split at hmove
    · cases hmove
    · next hopen =>
      obtain rfl := Option.some.inj hmove
      exact h.idle ⟨rfl, rfl, rfl⟩ rfl (by simp [tick, enqueue]) id fun hg => absurd hg hopen
  | lower =>
    simp only [move] at hmove
    split at hmove
    · obtain rfl := Option.some.inj hmove
      exact h.idle ⟨rfl, rfl, rfl⟩ rfl rfl (by simp [tick]) (by simp [tick])
    · cases hmove
  | close =>
    simp only [move] at hmove
    split at hmove
    · obtain rfl := Option.some.inj hmove
      have hclock : (lose w.queue w).clock = w.clock := (lose_rest w.queue w).2.2
      have hclose := h.close
      rw [← hclock] at hclose
      exact hclose
    · cases hmove

theorem inv_step {a : Act κ ω} (h : Inv O s₀ w) (hstep : step O w a = some w') : Inv O s₀ w' := by
  obtain ⟨w₁, hmove, rfl⟩ := Option.map_eq_some_iff.1 hstep
  exact inv_move h hmove

/-- Whatever the callers, the thread and the reads beside it do. -/
theorem linearized {as : List (Act κ ω)} (h : Steps.exec (step O) (start s₀) as = some w) : Linearized O s₀ w := by
  have hinv : Inv O s₀ w := Steps.exec_invariant (fun _ _ _ => inv_step) (inv_start s₀) h
  have hstands (i : Nat) (c : Call κ ρ) (hc : w.calls[i]? = some c) := hinv.stands i c hc
  unfold Stands at hstands
  refine ⟨hinv.legal, hinv.rising, hinv.once, ?_, ?_, ?_, ?_⟩
  · intro e he
    obtain ⟨c, hc, hcmd, hlt⟩ := hinv.source e he
    refine ⟨c, hc, hcmd, hlt, fun t ht => ?_⟩
    have hst := hstands e.id c hc
    split at hst
    · simp [ht] at hst
    · simp [ht] at hst
    · simp [ht] at hst
    · simp [ht] at hst
    · simp [ht] at hst
    · obtain ⟨-, -, t', ht', -, hbefore⟩ := hst
      obtain rfl := Option.some.inj (ht.symm.trans ht')
      exact hbefore e he rfl
    · obtain ⟨-, -, t', ht', -, hbefore⟩ := hst
      obtain rfl := Option.some.inj (ht.symm.trans ht')
      exact hbefore e he rfl
    · simp [ht] at hst
  · intro i c r hc hp
    have hst := hstands i c hc
    rw [hp] at hst
    exact hst.2.1
  · intro i c hc hp e he hid
    have hst := hstands i c hc
    rw [hp] at hst
    exact (hst.2.1 e he hid).2
  · intro i c hc hp
    have hst := hstands i c hc
    rw [hp] at hst
    refine ⟨hst.1, fun hg => ?_⟩
    rw [hinv.gone hg] at hst
    simp at hst

end Invariant

/-! ## What follows for the callers -/

/-- Call `i` asked for `c` and was answered `r`. -/
def World.Told (w : World σ κ ω ρ) (i : Nat) (c : κ) (r : ρ) : Prop :=
  ∃ call : Call κ ρ, w.calls[i]? = some call ∧ call.cmd = c ∧ call.phase = .answered (.ok r)

/-- Call `i` was over when call `j` began. -/
def World.Precedes (w : World σ κ ω ρ) (i j : Nat) : Prop :=
  ∃ (c c' : Call κ ρ) (t : Nat), w.calls[i]? = some c ∧ w.calls[j]? = some c' ∧ c.ended = some t ∧ t ≤ c'.begun

section Callers

variable {O : Object σ κ ω ρ} {s : σ} {w : World σ κ ω ρ} {e e' : Done κ ω ρ}

/-- An answer is that of the command, which was done. -/
theorem Linearized.told (h : Linearized O s w) {i : Nat} {c : κ} {r : ρ} (ht : w.Told i c r) :
    ∃ e ∈ w.log, e.id = i ∧ e.cmd = c ∧ e.reply = r := by
  obtain ⟨call, hi, hcmd, hp⟩ := ht
  obtain ⟨e, he, hid, hr⟩ := h.replies i call r hi hp
  obtain ⟨call', hi', hcmd', -⟩ := h.within e he
  rw [hid] at hi'
  obtain rfl := Option.some.inj (hi.symm.trans hi')
  exact ⟨e, he, hid, hcmd'.symm.trans hcmd, hr⟩

/-- What was answered before another command was called took effect before it. -/
theorem Linearized.order (h : Linearized O s w) (he : e ∈ w.log) (he' : e' ∈ w.log) (hp : w.Precedes e.id e'.id) :
    e.time < e'.time := by
  obtain ⟨c, c', t, hc, hc', hended, hbegun⟩ := hp
  obtain ⟨c₁, hc₁, -, -, hbefore⟩ := h.within e he
  obtain ⟨c₂, hc₂, -, hafter, -⟩ := h.within e' he'
  obtain rfl := Option.some.inj (hc.symm.trans hc₁)
  obtain rfl := Option.some.inj (hc'.symm.trans hc₂)
  have := hbefore t hended
  omega

/-- Of two commands that were done, what is before and between them. -/
theorem Linearized.split (h : Linearized O s w) (he : e ∈ w.log) (he' : e' ∈ w.log) (hlt : e.time < e'.time) :
    ∃ es fs gs, w.log = es ++ e :: (fs ++ e' :: gs) := by
  obtain ⟨es, rest, hlog⟩ := List.append_of_mem he
  have hrising := h.rising
  rw [hlog] at he' hrising
  have hin : e' ∈ rest := by
    rcases List.mem_append.1 he' with hin | hin
    · have := (List.pairwise_append.1 hrising).2.2 e' hin e List.mem_cons_self
      omega
    · rcases List.mem_cons.1 hin with rfl | hin
      · omega
      · exact hin
  obtain ⟨fs, gs, rfl⟩ := List.append_of_mem hin
  exact ⟨es, fs, gs, hlog⟩

/-- Two commands of one call are one. -/
theorem Linearized.eq_of_id (h : Linearized O s w) (he : e ∈ w.log) (he' : e' ∈ w.log) (hid : e.id = e'.id) : e = e' :=
  List.inj_on_of_nodup_map h.once he he' hid

/-- Commands of two calls are one before the other. -/
theorem Linearized.total (h : Linearized O s w) (he : e ∈ w.log) (he' : e' ∈ w.log) (hne : e.id ≠ e'.id) :
    e.time < e'.time ∨ e'.time < e.time := by
  rcases Nat.lt_trichotomy e.time e'.time with hlt | heq | hlt
  · exact .inl hlt
  · refine absurd ?_ hne
    have hnodup : (w.log.map (·.time)).Nodup := by
      rw [List.Nodup, List.pairwise_map]
      exact h.rising.imp Nat.ne_of_lt
    rw [List.inj_on_of_nodup_map hnodup he he' heq]
  · exact .inr hlt

end Callers

end SingleWriter
