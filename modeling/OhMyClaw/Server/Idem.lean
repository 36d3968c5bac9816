import OhMyClaw.Lib.Steps
import OhMyClaw.Server.Session

/-!
# Idempotency keys

A request may carry an idempotency key.  The server looks the key up, runs the method's
handler if it has no result for it, and stores the result if the handler succeeded.  These
are three steps; requests of different connections are served side by side, those of one
connection one after the other.

The handlers are free: whatever they return, and whatever they do on the way, happens in the
step `handled`.

    handled_once_iff        when every key is handled at most once and answered in one way
    handled_once_fails      two connections whose requests overlap
-/

namespace OhMyClaw

/-- How long a result is kept, in milliseconds. -/
def idemTtl : Nat := 3600000

inductive ResResult (Ok Err : Type) where
  | ok (v : Ok)
  | err (e : Err)
deriving DecidableEq, Repr

structure Req (M : Type) where
  id : String
  method : M
  idempotencyKey : Option String
deriving DecidableEq, Repr

structure IdemEntry (Ok : Type) where
  ok : Ok
  cachedAt : Nat
deriving DecidableEq, Repr

/-- How far a request has come. -/
inductive ReqPhase (Ok Err : Type) where
  | received
  /-- Its key has a result that is too old and is about to be removed. -/
  | expired (key : String)
  | handling
  | handled (r : ResResult Ok Err)
  | answered (r : ResResult Ok Err)
deriving DecidableEq, Repr

structure Serving (M Ok Err : Type) where
  conn : Nat
  req : Req M
  phase : ReqPhase Ok Err
deriving DecidableEq, Repr

/-- Keep the entries whose value satisfies `p`. -/
def IdMap.retain {β : Type} (p : β → Bool) (m : IdMap β) : IdMap β where
  entries := m.entries.filter fun e => p e.2
  nodupKeys := List.NodupKeys.sublist List.filter_sublist m.nodupKeys

theorem IdMap.lookup_retain {β : Type} {p : β → Bool} {m : IdMap β} {k : String} {v : β}
    (h : (m.retain p).lookup k = some v) : m.lookup k = some v := by
  have hmem := AList.mem_lookup_iff.1 (Option.mem_def.2 h)
  exact AList.mem_lookup_iff.2 (List.mem_of_mem_filter hmem)

/-- The cache, the requests in the order of their arrival, and a history. -/
structure Idem (M Ok Err : Type) where
  now : Nat
  idem : IdMap (IdemEntry Ok)
  reqs : List (Serving M Ok Err)
  /-- History: the requests that went on to their handler. -/
  executed : List Nat
deriving DecidableEq

namespace Idem

variable {M Ok Err : Type}

def new : Idem M Ok Err := { now := 0, idem := ∅, reqs := [], executed := [] }

inductive Act (M Ok Err : Type) where
  /-- A connection reads a request. -/
  | arrive (conn : Nat) (req : Req M)
  | lookup (i : Nat)
  | remove (i : Nat)
  /-- The handler of request `i` returns. -/
  | handled (i : Nat) (r : ResResult Ok Err)
  /-- The result of request `i` is stored and sent back. -/
  | answer (i : Nat)
  | advance (ms : Nat)
  | gcTick
deriving DecidableEq, Repr

def ReqPhase.isAnswered : ReqPhase Ok Err → Bool
  | .answered _ => true
  | _ => false

def setPhase (s : Idem M Ok Err) (i : Nat) (p : ReqPhase Ok Err) : Idem M Ok Err :=
  { s with reqs := s.reqs.modify i fun r => { r with phase := p } }

def isFresh (now : Nat) (e : IdemEntry Ok) : Bool := now - e.cachedAt < idemTtl

def idemPut (s : Idem M Ok Err) (key : String) (ok : Ok) : Idem M Ok Err :=
  { s with idem := s.idem.insert key { ok, cachedAt := s.now } }

/-- The request goes on to its handler, at once or when the old result is out of the way. -/
def execute (s : Idem M Ok Err) (i : Nat) (p : ReqPhase Ok Err) : Idem M Ok Err :=
  { s.setPhase i p with executed := i :: s.executed }

/-- A cached result answers the request if it is not too old. -/
def idemGet (s : Idem M Ok Err) (i : Nat) (key : String) : Idem M Ok Err :=
  match s.idem.lookup key with
  | some e =>
    if isFresh s.now e then s.setPhase i (.answered (.ok e.ok)) else s.execute i (.expired key)
  | none => s.execute i .handling

/-- Only a success is stored. -/
def storeResult (s : Idem M Ok Err) (key : Option String) (r : ResResult Ok Err) : Idem M Ok Err :=
  match key, r with
  | some k, .ok ok => s.idemPut k ok
  | _, _ => s

def step (s : Idem M Ok Err) (a : Act M Ok Err) : Option (Idem M Ok Err) :=
  match a with
  | .arrive conn req =>
    if s.reqs.all fun r => r.conn ≠ conn || ReqPhase.isAnswered r.phase then
      some { s with reqs := s.reqs ++ [{ conn, req, phase := .received }] }
    else none
  | .lookup i =>
    match s.reqs[i]? with
    | some { req, phase := .received, .. } =>
      match req.idempotencyKey with
      | some key => some (s.idemGet i key)
      | none => some (s.execute i .handling)
    | _ => none
  | .remove i =>
    match s.reqs[i]? with
    | some { phase := .expired key, .. } =>
      some ({ s with idem := s.idem.erase key }.setPhase i .handling)
    | _ => none
  | .handled i r =>
    match s.reqs[i]? with
    | some { phase := .handling, .. } => some (s.setPhase i (.handled r))
    | _ => none
  | .answer i =>
    match s.reqs[i]? with
    | some { req, phase := .handled r, .. } =>
      some ((s.storeResult req.idempotencyKey r).setPhase i (.answered r))
    | _ => none
  | .advance ms => some { s with now := s.now + ms }
  | .gcTick => some { s with idem := s.idem.retain (isFresh s.now) }

/-! ## What the requests with one key get -/

def keyOf (s : Idem M Ok Err) (i : Nat) : Option String :=
  (s.reqs[i]?).bind (·.req.idempotencyKey)

def phaseOf (s : Idem M Ok Err) (i : Nat) : Option (ReqPhase Ok Err) := (s.reqs[i]?).map (·.phase)

/-- How often a request with this key went on to its handler. -/
def executions (s : Idem M Ok Err) (key : String) : Nat :=
  s.executed.countP fun i => s.keyOf i = some key

/-- Each key has been handled at most once, and its requests have been given one answer. -/
def HandledOnce (s : Idem M Ok Err) : Prop :=
  ∀ key, s.executions key ≤ 1 ∧
    ∀ i j r r', s.keyOf i = some key → s.keyOf j = some key →
      s.phaseOf i = some (.answered r) → s.phaseOf j = some (.answered r') → r = r'

/-- A request whose key has been handled before finds the result when it looks. -/
def FindsResult (s : Idem M Ok Err) (a : Act M Ok Err) (_ : Idem M Ok Err) : Prop :=
  ∀ i key, a = .lookup i → s.keyOf i = some key → s.executions key ≠ 0 →
    ∃ e, s.idem.lookup key = some e ∧ s.now - e.cachedAt < idemTtl

/-! ## What a step can be -/

@[simp] theorem keyOf_setPhase (s : Idem M Ok Err) (i j : Nat) (p : ReqPhase Ok Err) :
    (s.setPhase i p).keyOf j = s.keyOf j := by
  unfold keyOf setPhase
  rw [List.getElem?_modify]
  by_cases h : i = j
  · cases s.reqs[j]? <;> simp [h]
  · simp [h]

theorem phaseOf_setPhase (s : Idem M Ok Err) (i j : Nat) (p : ReqPhase Ok Err) :
    (s.setPhase i p).phaseOf j = if i = j then (s.phaseOf j).map fun _ => p else s.phaseOf j := by
  unfold phaseOf setPhase
  rw [List.getElem?_modify]
  by_cases h : i = j
  · simp [h, Function.comp_def]
  · simp [h]

theorem lt_of_phaseOf {s : Idem M Ok Err} {i : Nat} {p : ReqPhase Ok Err} (h : s.phaseOf i = some p) :
    i < s.reqs.length := by
  obtain ⟨x, hx, -⟩ := Option.map_eq_some_iff.1 h
  exact (List.getElem?_eq_some_iff.1 hx).1

/-- All a step can do. -/
inductive Change (s : Idem M Ok Err) : Act M Ok Err → Idem M Ok Err → Prop
  | arrive {conn req} :
      Change s (.arrive conn req) { s with reqs := s.reqs ++ [{ conn, req, phase := .received }] }
  | hit {i key e} (hphase : s.phaseOf i = some .received) (hkey : s.keyOf i = some key)
      (hlook : s.idem.lookup key = some e) (hfresh : isFresh s.now e = true) :
      Change s (.lookup i) (s.setPhase i (.answered (.ok e.ok)))
  | miss {i p} (hphase : s.phaseOf i = some .received) (hp : ∀ r, p ≠ .answered r)
      (hcold : ∀ key e, s.keyOf i = some key → s.idem.lookup key = some e → isFresh s.now e = false) :
      Change s (.lookup i) (s.execute i p)
  | remove {i key} (hphase : s.phaseOf i = some (.expired key)) :
      Change s (.remove i) ({ s with idem := s.idem.erase key }.setPhase i .handling)
  | handled {i r} (hphase : s.phaseOf i = some .handling) :
      Change s (.handled i r) (s.setPhase i (.handled r))
  | answer {i r} (hphase : s.phaseOf i = some (.handled r)) :
      Change s (.answer i) ((s.storeResult (s.keyOf i) r).setPhase i (.answered r))
  | advance {ms} : Change s (.advance ms) { s with now := s.now + ms }
  | gcTick : Change s .gcTick { s with idem := s.idem.retain (isFresh s.now) }

theorem change_of_step {s t : Idem M Ok Err} {a : Act M Ok Err} (h : step s a = some t) :
    Change s a t := by
  cases a with
  | arrive conn req =>
    simp only [step] at h
    split at h
    · obtain rfl := Option.some.inj h
      exact .arrive
    · simp at h
  | lookup i =>
    simp only [step] at h
    split at h
    case h_2 => simp at h
    case h_1 conn req hreq =>
      have hphase : s.phaseOf i = some .received := by simp [phaseOf, hreq]
      have hkey : s.keyOf i = req.idempotencyKey := by simp [keyOf, hreq]
      split at h
      case h_2 hnone =>
        obtain rfl := Option.some.inj h
        exact .miss hphase (by simp) fun key e hk => by simp [hkey, hnone] at hk
      case h_1 key hsome =>
        obtain rfl := Option.some.inj h
        rw [hsome] at hkey
        unfold idemGet
        cases hlook : s.idem.lookup key with
        | none =>
          refine .miss hphase (by simp) fun key' e hk he => ?_
          obtain rfl := Option.some.inj (hkey.symm.trans hk)
          simp [hlook] at he
        | some e =>
          by_cases hfresh : isFresh s.now e = true
          · simp only [hfresh, if_true]
            exact .hit hphase hkey hlook hfresh
          · simp only [hfresh]
            refine .miss hphase (by simp) fun key' e' hk he => ?_
            obtain rfl := Option.some.inj (hkey.symm.trans hk)
            obtain rfl := Option.some.inj (hlook.symm.trans he)
            simpa using hfresh
  | remove i =>
    simp only [step] at h
    split at h
    · next hreq =>
      obtain rfl := Option.some.inj h
      exact .remove (by simp [phaseOf, hreq])
    · simp at h
  | handled i r =>
    simp only [step] at h
    split at h
    · next hreq =>
      obtain rfl := Option.some.inj h
      exact .handled (by simp [phaseOf, hreq])
    · simp at h
  | answer i =>
    simp only [step] at h
    split at h
    · next req r hreq =>
      obtain rfl := Option.some.inj h
      have hkey : s.keyOf i = req.idempotencyKey := by simp [keyOf, hreq]
      rw [← hkey]
      exact .answer (by simp [phaseOf, hreq])
    · simp at h
  | advance ms =>
    obtain rfl := Option.some.inj h
    exact .advance
  | gcTick =>
    obtain rfl := Option.some.inj h
    exact .gcTick

/-! ## Answers come from the handler -/

/-- A request with this key has been handled and answered with `r`. -/
def Settled (s : Idem M Ok Err) (key : String) (r : ResResult Ok Err) : Prop :=
  ∃ i ∈ s.executed, s.keyOf i = some key ∧ s.phaseOf i = some (.answered r)

/-- What a settled key has been settled with stays when a request that has no answer yet moves on. -/
theorem Settled.move {s : Idem M Ok Err} {key : String} {r : ResResult Ok Err} {i : Nat}
    {p : ReqPhase Ok Err} {executed : List Nat} (h : s.Settled key r)
    (hi : ∀ r, s.phaseOf i ≠ some (.answered r)) (hsub : ∀ j ∈ s.executed, j ∈ executed) :
    { s.setPhase i p with executed }.Settled key r := by
  obtain ⟨j, hj, hkey, hphase⟩ := h
  have hne : i ≠ j := fun hij => hi r (hij ▸ hphase)
  refine ⟨j, hsub j hj, ?_, ?_⟩
  · show (s.setPhase i p).keyOf j = some key
    rw [keyOf_setPhase, hkey]
  · show (s.setPhase i p).phaseOf j = some (.answered r)
    rw [phaseOf_setPhase, if_neg hne, hphase]

theorem Settled.snoc {s : Idem M Ok Err} {key : String} {r : ResResult Ok Err}
    (h : s.Settled key r) (x : Serving M Ok Err) : { s with reqs := s.reqs ++ [x] }.Settled key r := by
  obtain ⟨j, hj, hkey, hphase⟩ := h
  have hlt := lt_of_phaseOf hphase
  refine ⟨j, hj, ?_, ?_⟩
  · show ((s.reqs ++ [x])[j]?).bind _ = _
    rw [List.getElem?_append_left hlt]
    exact hkey
  · show ((s.reqs ++ [x])[j]?).map _ = _
    rw [List.getElem?_append_left hlt]
    exact hphase

structure Inv (s : Idem M Ok Err) : Prop where
  listed : ∀ i ∈ s.executed, i < s.reqs.length
  /-- Who is on the way through the handler has been counted. -/
  begun : ∀ i p, s.phaseOf i = some p → p ≠ .received → ¬ ReqPhase.isAnswered p → i ∈ s.executed
  /-- A cached result is what a handled request was answered with. -/
  cached : ∀ key e, s.idem.lookup key = some e → s.Settled key (.ok e.ok)
  /-- Every answer is that of a handled request with the same key. -/
  answered : ∀ i key r, s.keyOf i = some key → s.phaseOf i = some (.answered r) → s.Settled key r

theorem inv_new : (new : Idem M Ok Err).Inv where
  listed i h := by simp [new] at h
  begun i p h := by simp [phaseOf, new] at h
  cached key e h := by simp [new] at h
  answered i key r h := by simp [keyOf, new] at h

/-- Removing results from the cache harms nobody. -/
theorem Inv.forget {s : Idem M Ok Err} (h : s.Inv) {m : IdMap (IdemEntry Ok)}
    (hm : ∀ key e, m.lookup key = some e → s.idem.lookup key = some e) : { s with idem := m }.Inv where
  listed := h.listed
  begun := h.begun
  cached key e he := h.cached key e (hm key e he)
  answered := h.answered

/-- A request that has no answer yet moves on: it must be counted unless it is answered, and
answered only with what its key has been settled with. -/
theorem Inv.move {s : Idem M Ok Err} (h : s.Inv) {i : Nat} {p : ReqPhase Ok Err}
    {executed : List Nat} (hi : ∀ r, s.phaseOf i ≠ some (.answered r))
    (hsub : ∀ j ∈ s.executed, j ∈ executed) (hlisted : ∀ j ∈ executed, j < s.reqs.length)
    (hbegun : ¬ ReqPhase.isAnswered p → i ∈ executed)
    (hanswer : ∀ r key, p = .answered r → s.keyOf i = some key →
      { s.setPhase i p with executed }.Settled key r) :
    { s.setPhase i p with executed }.Inv where
  listed j hj := by
    show j < (s.reqs.modify i _).length
    rw [List.length_modify]
    exact hlisted j hj
  begun j q hq hrecv hans := by
    change (s.setPhase i p).phaseOf j = some q at hq
    rw [phaseOf_setPhase] at hq
    by_cases hij : i = j
    · rw [if_pos hij, Option.map_eq_some_iff] at hq
      obtain ⟨_, _, rfl⟩ := hq
      exact hij ▸ hbegun hans
    · rw [if_neg hij] at hq
      exact hsub j (h.begun j q hq hrecv hans)
  cached key e he := (h.cached key e he).move hi hsub
  answered j key r hkey hphase := by
    change (s.setPhase i p).keyOf j = some key at hkey
    change (s.setPhase i p).phaseOf j = some (.answered r) at hphase
    rw [keyOf_setPhase] at hkey
    rw [phaseOf_setPhase] at hphase
    by_cases hij : i = j
    · rw [if_pos hij, Option.map_eq_some_iff] at hphase
      obtain ⟨_, _, hp⟩ := hphase
      exact hanswer r key hp (hij ▸ hkey)
    · rw [if_neg hij] at hphase
      exact (h.answered j key r hkey hphase).move hi hsub

theorem Inv.snoc {s : Idem M Ok Err} (h : s.Inv) (conn : Nat) (req : Req M) :
    { s with reqs := s.reqs ++ [Serving.mk conn req .received] }.Inv where
  listed j hj := by
    have hlt := h.listed j hj
    simp only [List.length_append]
    omega
  begun j q hq hrecv hans := by
    simp only [phaseOf] at hq
    by_cases hlt : j < s.reqs.length
    · rw [List.getElem?_append_left hlt] at hq
      exact h.begun j q hq hrecv hans
    · rw [List.getElem?_append_right (by omega), Option.map_eq_some_iff] at hq
      obtain ⟨x, hx, rfl⟩ := hq
      obtain rfl := List.mem_singleton.1 (List.mem_of_getElem? hx)
      exact absurd rfl hrecv
  cached key e he := (h.cached key e he).snoc _
  answered j key r hkey hphase := by
    simp only [keyOf, phaseOf] at hkey hphase
    by_cases hlt : j < s.reqs.length
    · rw [List.getElem?_append_left hlt] at hkey hphase
      exact (h.answered j key r hkey hphase).snoc _
    · rw [List.getElem?_append_right (by omega), Option.map_eq_some_iff] at hphase
      obtain ⟨x, hx, hr⟩ := hphase
      obtain rfl := List.mem_singleton.1 (List.mem_of_getElem? hx)
      simp at hr

theorem Inv.storeResult {s : Idem M Ok Err} (h : s.Inv) {i : Nat} {r : ResResult Ok Err}
    (hphase : s.phaseOf i = some (.handled r)) :
    ((s.storeResult (s.keyOf i) r).setPhase i (.answered r)).Inv := by
  have hi : ∀ r', s.phaseOf i ≠ some (.answered r') := by simp [hphase]
  have hexec : i ∈ s.executed := h.begun i _ hphase (by simp) (by simp [ReqPhase.isAnswered])
  have hself : ∀ key, s.keyOf i = some key → (s.setPhase i (.answered r)).Settled key r := by
    intro key hkey
    refine ⟨i, hexec, by rw [keyOf_setPhase, hkey], ?_⟩
    rw [phaseOf_setPhase, if_pos rfl, hphase, Option.map_some]
  have hanswered : (s.setPhase i (.answered r)).Inv :=
    h.move hi (fun j hj => hj) h.listed (fun hn => absurd rfl hn) fun r' key hr hkey => by
      obtain rfl := ReqPhase.answered.inj hr
      exact hself key hkey
  unfold Idem.storeResult
  split
  case h_2 => exact hanswered
  case h_1 key ok hkey =>
    refine { hanswered with cached := fun key' e he => ?_ }
    change (s.idem.insert key { ok, cachedAt := s.now }).lookup key' = some e at he
    by_cases hk : key' = key
    · subst hk
      rw [AList.lookup_insert] at he
      obtain rfl := Option.some.inj he
      exact hself key' hkey
    · rw [AList.lookup_insert_ne hk] at he
      exact hanswered.cached key' e he

theorem inv_step {s t : Idem M Ok Err} {a : Act M Ok Err} (h : s.Inv) (hstep : step s a = some t) :
    t.Inv := by
  cases change_of_step hstep with
  | arrive => exact h.snoc _ _
  | @hit i key e hphase hkey hlook hfresh =>
    refine h.move (by simp [hphase]) (fun j hj => hj) h.listed (fun hn => absurd rfl hn)
      fun r key' hr hk => ?_
    obtain rfl := ReqPhase.answered.inj hr
    obtain rfl := Option.some.inj (hkey.symm.trans hk)
    exact (h.cached key e hlook).move (by simp [hphase]) fun j hj => hj
  | @miss i p hphase hp hcold =>
    have hlisted : ∀ j ∈ i :: s.executed, j < s.reqs.length := by
      intro j hj
      rcases List.mem_cons.1 hj with rfl | hj
      · exact lt_of_phaseOf hphase
      · exact h.listed j hj
    exact h.move (by simp [hphase]) (fun j hj => List.mem_cons_of_mem _ hj) hlisted
      (fun _ => List.mem_cons_self) fun r key hr => absurd hr (hp r)
  | @remove i key hphase =>
    have herase : { s with idem := s.idem.erase key }.Inv := by
      refine h.forget fun key' e he => ?_
      by_cases hk : key' = key
      · rw [hk, AList.lookup_erase] at he
        simp at he
      · rwa [AList.lookup_erase_ne hk] at he
    have hexec : i ∈ s.executed := h.begun i _ hphase (by simp) (by simp [ReqPhase.isAnswered])
    have hi : ∀ r, ({ s with idem := s.idem.erase key } : Idem M Ok Err).phaseOf i ≠
        some (.answered r) := by
      intro r hr
      have heq := hphase.symm.trans hr
      simp at heq
    exact herase.move hi (fun j hj => hj) h.listed (fun _ => hexec) (by simp)
  | @handled i r hphase =>
    have hexec : i ∈ s.executed := h.begun i _ hphase (by simp) (by simp [ReqPhase.isAnswered])
    exact h.move (by simp [hphase]) (fun j hj => hj) h.listed (fun _ => hexec) (by simp)
  | answer hphase => exact h.storeResult hphase
  | advance => exact ⟨h.listed, h.begun, h.cached, h.answered⟩
  | gcTick => exact h.forget fun key e he => IdMap.lookup_retain he

/-! ## Once only -/

theorem eq_of_countP_le_one {α : Type} {p : α → Bool} {l : List α} (h : l.countP p ≤ 1) {a b : α}
    (ha : a ∈ l) (hb : b ∈ l) (hpa : p a = true) (hpb : p b = true) : a = b := by
  have ha' : a ∈ l.filter p := List.mem_filter.2 ⟨ha, hpa⟩
  have hb' : b ∈ l.filter p := List.mem_filter.2 ⟨hb, hpb⟩
  rw [List.countP_eq_length_filter] at h
  match hl : l.filter p with
  | [] => simp [hl] at ha'
  | [x] => rw [hl, List.mem_singleton] at ha' hb'; exact ha'.trans hb'.symm
  | x :: y :: zs => simp [hl] at h

/-- Since every answer comes from a handler, one execution is enough for one answer. -/
theorem handledOnce_iff {s : Idem M Ok Err} (h : s.Inv) :
    s.HandledOnce ↔ ∀ key, s.executions key ≤ 1 := by
  constructor
  · intro hs key
    exact (hs key).1
  · intro hs key
    refine ⟨hs key, fun i j r r' hi hj hr hr' => ?_⟩
    obtain ⟨i', hi', hikey, hir⟩ := h.answered i key r hi hr
    obtain ⟨j', hj', hjkey, hjr⟩ := h.answered j key r' hj hr'
    obtain rfl : i' = j' :=
      eq_of_countP_le_one (hs key) hi' hj' (decide_eq_true hikey) (decide_eq_true hjkey)
    have heq := hir.symm.trans hjr
    simpa using heq

theorem executions_setPhase (s : Idem M Ok Err) (i : Nat) (p : ReqPhase Ok Err) (key : String) :
    (s.setPhase i p).executions key = s.executions key := by
  unfold executions
  simp only [keyOf_setPhase]
  rfl

theorem executions_execute (s : Idem M Ok Err) (i : Nat) (p : ReqPhase Ok Err) (key : String) :
    (s.execute i p).executions key = s.executions key + if s.keyOf i = some key then 1 else 0 := by
  show (i :: s.executed).countP (fun j => (s.setPhase i p).keyOf j = some key) = _
  rw [List.countP_cons]
  simp only [keyOf_setPhase, decide_eq_true_eq]
  rfl

theorem Inv.executions_snoc {s : Idem M Ok Err} (h : s.Inv) (x : Serving M Ok Err) (key : String) :
    { s with reqs := s.reqs ++ [x] }.executions key = s.executions key := by
  refine List.countP_congr fun i hi => ?_
  have hkey : ({ s with reqs := s.reqs ++ [x] } : Idem M Ok Err).keyOf i = s.keyOf i := by
    unfold keyOf
    rw [List.getElem?_append_left (h.listed i hi)]
  rw [hkey]

theorem executions_storeResult (s : Idem M Ok Err) (k : Option String) (r : ResResult Ok Err)
    (key : String) : (s.storeResult k r).executions key = s.executions key := by
  unfold storeResult
  split <;> rfl

/-- Only a lookup that finds nothing fresh sends a request on to its handler. -/
theorem once_step_iff {s t : Idem M Ok Err} {a : Act M Ok Err} (h : s.Inv) (honce : s.HandledOnce)
    (hstep : step s a = some t) : t.HandledOnce ↔ FindsResult s a t := by
  have hs := (handledOnce_iff h).1 honce
  rw [handledOnce_iff (inv_step h hstep)]
  -- A step that is no lookup leaves the count alone and asks for nothing.
  have hsame (hcount : ∀ key, t.executions key = s.executions key) (hno : ∀ i, a ≠ .lookup i) :
      (∀ key, t.executions key ≤ 1) ↔ FindsResult s a t := by
    constructor
    · intro _ i key ha
      exact absurd ha (hno i)
    · intro _ key
      rw [hcount key]
      exact hs key
  cases change_of_step hstep with
  | arrive => exact hsame (h.executions_snoc _) (by simp)
  | @hit i key e hphase hkey hlook hfresh =>
    constructor
    · intro _ i' key' ha hk _
      obtain rfl := Act.lookup.inj ha
      obtain rfl := Option.some.inj (hkey.symm.trans hk)
      exact ⟨e, hlook, of_decide_eq_true hfresh⟩
    · intro _ key'
      rw [executions_setPhase]
      exact hs key'
  | @miss i p hphase hp hcold =>
    constructor
    · intro ht i' key ha hk hne
      obtain rfl := Act.lookup.inj ha
      have hle := ht key
      rw [executions_execute, if_pos hk] at hle
      omega
    · intro hfinds key
      have hle := hs key
      rw [executions_execute]
      split
      · next hk =>
        by_cases hzero : s.executions key = 0
        · omega
        · obtain ⟨e, he, hfresh⟩ := hfinds i key rfl hk hzero
          have hold := hcold key e hk he
          simp [isFresh, hfresh] at hold
      · exact hle
  | remove hphase => exact hsame (executions_setPhase _ _ _) (by simp)
  | handled hphase => exact hsame (executions_setPhase _ _ _) (by simp)
  | answer hphase =>
    refine hsame (fun key => ?_) (by simp)
    rw [executions_setPhase, executions_storeResult]
  | advance => exact hsame (fun _ => rfl) (by simp)
  | gcTick => exact hsame (fun _ => rfl) (by simp)

/-- Every key is handled at most once and answered in one way, throughout a run, exactly if
each request whose key has gone to its handler before finds a result that is stored and not
too old when it looks. -/
theorem handled_once_iff (as : List (Act M Ok Err)) :
    Steps.AllStates step HandledOnce new as ↔ Steps.AllSteps step FindsResult new as := by
  have hnew : (new : Idem M Ok Err).HandledOnce := by
    intro key
    refine ⟨Nat.zero_le 1, fun i j r r' hi => ?_⟩
    simp [keyOf, new] at hi
  exact Steps.allStates_iff_allSteps (fun s a t h ht => inv_step h ht)
    (fun s a t h hs ht => once_step_iff h hs ht) inv_new hnew as

/-- Two connections retry one request: the second looks before the first has its result. -/
theorem handled_once_fails :
    ¬ ∀ as : List (Act Unit String Unit), Steps.AllStates step HandledOnce new as := by
  intro h
  have hall := h [.arrive 0 { id := "1", method := (), idempotencyKey := some "k" },
    .arrive 1 { id := "1", method := (), idempotencyKey := some "k" }, .lookup 0, .lookup 1]
  obtain ⟨s, hs, hcount⟩ : ∃ s : Idem Unit String Unit, Steps.exec step new
      [.arrive 0 { id := "1", method := (), idempotencyKey := some "k" },
        .arrive 1 { id := "1", method := (), idempotencyKey := some "k" }, .lookup 0, .lookup 1] =
      some s ∧ s.executions "k" = 2 := by
    refine Option.map_eq_some_iff.1 (?_ : Option.map (fun s : Idem Unit String Unit => s.executions "k") _ = some 2)
    decide
  have honce := Steps.allStates_iff.1 hall _ s (List.prefix_refl _) hs
  have hle := (honce "k").1
  omega

end Idem

end OhMyClaw
