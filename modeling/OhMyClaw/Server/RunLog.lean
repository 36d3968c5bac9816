import OhMyClaw.Lib.RingBuf
import OhMyClaw.Proto.Event

/-!
# The event log of a detached run

A detached run writes its inline events to a log that keeps the last 1024 of them.  A client
that comes back names the largest entry it has from the stored history; the log replays what
is not in that entry yet and goes on with the live events.  Where the replay begins is
decided by the marks: after each stored entry the log remembers how many events had been
pushed by then.

A subscriber is its receiver's queue.  It is named by its position, so it keeps its place
when its receiver goes away; the log then has nothing more to send to it.
-/

namespace OhMyClaw

/-- The capacity of the log. -/
def logCap : Nat := 1024

instance : Fact (0 < logCap) := ⟨by decide⟩

structure LogSub where
  /-- The receiver is still there. -/
  live : Bool
  received : List Event
deriving DecidableEq, Repr

structure RunLog where
  ring : RingBuf Event logCap
  /-- An entry's seq, and how many events had been pushed when it was stored. -/
  marks : List (Int × Nat)
  subs : List LogSub
deriving DecidableEq, Repr

def Event.isReasoning : Event → Bool
  | .reasoning _ _ _ => true
  | _ => false

/-- Whether a replay hands out the event. -/
def Event.replayed (replayReasoning : Bool) (e : Event) : Bool := replayReasoning || !e.isReasoning

def LogSub.send (e : Event) (s : LogSub) : LogSub :=
  if s.live then { s with received := s.received ++ [e] } else s

namespace RunLog

def new : RunLog := { ring := .empty, marks := [], subs := [] }

/-- Into the buffer, and on to every live subscriber. -/
def push (l : RunLog) (e : Event) : RunLog :=
  { l with ring := l.ring.push e, subs := l.subs.map (LogSub.send e) }

/-- What has been pushed so far is in entries up to `seq`. -/
def markPersisted (l : RunLog) (seq : Int) : RunLog :=
  { l with marks := l.marks ++ [(seq, l.ring.pushed)] }

/-- Where a replay begins: the last mark that the client's history reaches. -/
def replayFrom (l : RunLog) (sinceSeq : Int) : Nat :=
  match l.marks.reverse.find? fun m => m.1 ≤ sinceSeq with
  | some m => m.2
  | none => 0

/-- Replay what the client does not have, then register it for what follows. -/
def subscribeFrom (l : RunLog) (sinceSeq : Int) (replayReasoning : Bool) : RunLog :=
  { l with
    subs := l.subs ++
      [{ live := true
         received := (l.ring.skip (l.replayFrom sinceSeq)).filter (Event.replayed replayReasoning) }] }

/-- The receiver of a subscriber is dropped. -/
def unsubscribe (l : RunLog) (i : Nat) : RunLog :=
  { l with subs := l.subs.modify i fun s => { s with live := false } }

/-- What has reached the subscriber at position `i`. -/
def received (l : RunLog) (i : Nat) : Option (List Event) := (l.subs[i]?).map (·.received)

end RunLog

/-! ## Histories of a log -/

inductive LogOp where
  | push (e : Event)
  | markPersisted (seq : Int)
  | subscribeFrom (sinceSeq : Int) (replayReasoning : Bool)
  | unsubscribe (i : Nat)
deriving DecidableEq, Repr

namespace RunLog

def apply (l : RunLog) : LogOp → RunLog
  | .push e => l.push e
  | .markPersisted seq => l.markPersisted seq
  | .subscribeFrom sinceSeq replayReasoning => l.subscribeFrom sinceSeq replayReasoning
  | .unsubscribe i => l.unsubscribe i

/-- The log after the operations `ops`, in the order in which they get its lock. -/
def after (ops : List LogOp) : RunLog := ops.foldl apply new

/-- A subscriber that is still there after another one has gone was there before. -/
theorem getElem?_unsubscribe {l : RunLog} {i j : Nat} {s : LogSub} (h : (l.unsubscribe i).subs[j]? = some s)
    (hlive : s.live = true) : l.subs[j]? = some s := by
  unfold unsubscribe at h
  simp only [List.getElem?_modify] at h
  split at h
  · obtain ⟨old, -, rfl⟩ := Option.map_eq_some_iff.1 h
    simp at hlive
  · simpa using h

theorem after_snoc (ops : List LogOp) (op : LogOp) : after (ops ++ [op]) = (after ops).apply op := by
  simp [after]

/-- The events pushed by `ops`, in order; an event's position is its global index. -/
def pushes : List LogOp → List Event
  | [] => []
  | .push e :: ops => e :: pushes ops
  | _ :: ops => pushes ops

@[simp] theorem pushes_append (as bs : List LogOp) : pushes (as ++ bs) = pushes as ++ pushes bs := by
  induction as with
  | nil => rfl
  | cons op as ih => cases op <;> simp [pushes, ih]

/-- How many have subscribed. -/
def subscriptions (ops : List LogOp) : Nat := ops.countP fun op => op matches .subscribeFrom _ _

/-- `m` is what the last mark up to `sinceSeq` recorded, and 0 if there is none. -/
def LastMark (ops : List LogOp) (sinceSeq : Int) (m : Nat) : Prop :=
  (∃ before seq later, ops = before ++ .markPersisted seq :: later ∧ seq ≤ sinceSeq ∧
    (∀ s, LogOp.markPersisted s ∈ later → sinceSeq < s) ∧ m = (pushes before).length) ∨
  ((∀ s, LogOp.markPersisted s ∈ ops → sinceSeq < s) ∧ m = 0)

/-! ## The parts of a log after a history -/

theorem after_ring (ops : List LogOp) : (after ops).ring.Holds (pushes ops) := by
  induction ops using List.reverseRec with
  | nil => exact RingBuf.holds_empty
  | append_singleton ops op ih =>
    rw [after_snoc, pushes_append]
    cases op with
    | push e => exact ih.push e
    | markPersisted seq => simpa [pushes, apply, markPersisted] using ih
    | subscribeFrom sinceSeq replayReasoning => simpa [pushes, apply, subscribeFrom] using ih
    | unsubscribe i => simpa [pushes, apply, unsubscribe] using ih

theorem after_subs_length (ops : List LogOp) : (after ops).subs.length = subscriptions ops := by
  induction ops using List.reverseRec with
  | nil => rfl
  | append_singleton ops op ih =>
    rw [after_snoc, subscriptions, List.countP_append, ← subscriptions, ← ih]
    cases op with
    | push e => simp [apply, push]
    | markPersisted seq => simp [apply, markPersisted]
    | subscribeFrom sinceSeq replayReasoning => simp [apply, subscribeFrom]
    | unsubscribe i => simp [apply, unsubscribe]

/-- The mark a replay looks up is the last one up to `sinceSeq`. -/
theorem after_replayFrom (ops : List LogOp) (sinceSeq : Int) :
    LastMark ops sinceSeq ((after ops).replayFrom sinceSeq) := by
  induction ops using List.reverseRec with
  | nil => exact Or.inr ⟨by simp, rfl⟩
  | append_singleton ops op ih =>
    have hpush := (after_ring ops).pushed
    rw [after_snoc]
    -- Anything but a mark that counts leaves the lookup as it was.
    have hkeep (hmarks : ((after ops).apply op).replayFrom sinceSeq = (after ops).replayFrom sinceSeq)
        (hop : ∀ s, op = .markPersisted s → sinceSeq < s) :
        LastMark (ops ++ [op]) sinceSeq (((after ops).apply op).replayFrom sinceSeq) := by
      rw [hmarks]
      rcases ih with ⟨before, seq, later, rfl, hseq, hlater, hm⟩ | ⟨hnone, hm⟩
      · refine Or.inl ⟨before, seq, later ++ [op], by simp, hseq, fun s hs => ?_, hm⟩
        rcases List.mem_append.1 hs with hs | hs
        · exact hlater s hs
        · exact hop s (List.mem_singleton.1 hs).symm
      · refine Or.inr ⟨fun s hs => ?_, hm⟩
        rcases List.mem_append.1 hs with hs | hs
        · exact hnone s hs
        · exact hop s (List.mem_singleton.1 hs).symm
    cases op with
    | push e => exact hkeep rfl (by simp)
    | subscribeFrom s replayReasoning => exact hkeep rfl (by simp)
    | unsubscribe i => exact hkeep rfl (by simp)
    | markPersisted seq =>
      by_cases hseq : seq ≤ sinceSeq
      · refine Or.inl ⟨ops, seq, [], rfl, hseq, by simp, ?_⟩
        simp [replayFrom, apply, markPersisted, hseq, hpush]
      · refine hkeep ?_ fun s hs => ?_
        · simp [replayFrom, apply, markPersisted, hseq]
        · obtain rfl := LogOp.markPersisted.inj hs
          omega

/-! ## What a subscriber receives -/

/-- As long as its receiver is there, a subscriber gets every later push and nothing else. -/
theorem received_after {as : List LogOp} {i : Nat} {got : List Event}
    (hsub : (after as).subs[i]? = some { live := true, received := got }) (bs : List LogOp)
    (hlive : LogOp.unsubscribe i ∉ bs) :
    (after (as ++ bs)).subs[i]? = some { live := true, received := got ++ pushes bs } := by
  induction bs using List.reverseRec with
  | nil => simpa [pushes] using hsub
  | append_singleton bs op ih =>
    rw [List.mem_append, not_or] at hlive
    have hi := ih hlive.1
    have hlt : i < (after (as ++ bs)).subs.length := (List.getElem?_eq_some_iff.1 hi).1
    rw [← List.append_assoc, after_snoc]
    cases op with
    | push e => simp [apply, push, hi, pushes, LogSub.send]
    | markPersisted seq => simpa [apply, markPersisted, pushes] using hi
    | subscribeFrom sinceSeq replayReasoning =>
      simpa [apply, subscribeFrom, pushes, List.getElem?_append_left hlt] using hi
    | unsubscribe j =>
      have hne : j ≠ i := fun h => hlive.2 (by simp [h])
      simpa [apply, unsubscribe, pushes, List.getElem?_modify, hne] using hi

/-- A subscriber gets what was pushed behind the last mark its history reaches, as far as the
ring still has it and without the reasoning, and then every later push. -/
theorem received_subscribeFrom (as bs : List LogOp) (sinceSeq : Int) (replayReasoning : Bool)
    (hlive : LogOp.unsubscribe (subscriptions as) ∉ bs) :
    ∃ m, LastMark as sinceSeq m ∧
      (after (as ++ .subscribeFrom sinceSeq replayReasoning :: bs)).received (subscriptions as) =
        some (((pushes as).drop (max m ((pushes as).length - logCap))).filter
          (Event.replayed replayReasoning) ++ pushes bs) := by
  refine ⟨(after as).replayFrom sinceSeq, after_replayFrom as sinceSeq, ?_⟩
  have hsub : (after (as ++ [.subscribeFrom sinceSeq replayReasoning])).subs[subscriptions as]? =
      some { live := true
             received := ((after as).ring.skip ((after as).replayFrom sinceSeq)).filter
               (Event.replayed replayReasoning) } := by
    rw [after_snoc, ← after_subs_length]
    simp [apply, subscribeFrom]
  have hafter := received_after hsub bs hlive
  rw [List.append_assoc] at hafter
  unfold received
  rw [← List.singleton_append, hafter, (after_ring as).skip_eq]
  rfl

theorem received_subscribeFrom_seven :
    ∃ m, LastMark [.push (.assistant "main" "r" "old"), .markPersisted 7,
        .push (.reasoning "main" "r" "hm"), .push (.assistant "main" "r" "new")] 7 m ∧
      (after ([.push (.assistant "main" "r" "old"), .markPersisted 7,
        .push (.reasoning "main" "r" "hm"), .push (.assistant "main" "r" "new")] ++
          .subscribeFrom 7 false :: [.push (.reasoning "main" "r" "so")])).received 0 =
        some (([Event.assistant "main" "r" "old", .reasoning "main" "r" "hm",
          .assistant "main" "r" "new"].drop (max m (3 - logCap))).filter (Event.replayed false) ++
          [.reasoning "main" "r" "so"]) :=
  received_subscribeFrom _ [.push (.reasoning "main" "r" "so")] 7 false (by decide)

end RunLog

end OhMyClaw
