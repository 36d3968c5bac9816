import Mathlib.Data.List.Induction

/-!
# Events of a run

The events a run sends in line: lifecycle, assistant text, reasoning, tool activity and
the two requests to the user.  `wordOf` reads a list of them as the word a client expects:
a start, then anything but lifecycle events, then one terminal and nothing behind it.
-/

namespace OhMyClaw

inductive RunErrorKind where
  | aborted | failed | panicked | loopDetected | timeout | truncated
deriving DecidableEq, Repr

inductive LifecyclePhase where
  | start
  | end
  | error (message : String) (kind : RunErrorKind)
deriving DecidableEq, Repr

inductive ToolStatus where
  | ok | error | aborted | backgrounded
deriving DecidableEq, Repr

inductive ToolPhase where
  | start (name args : String)
  | update (chunk : String)
  | end (status : ToolStatus)
deriving DecidableEq, Repr

inductive Event where
  | lifecycle (session runId : String) (phase : LifecyclePhase)
  | assistant (session runId delta : String)
  | reasoning (session runId delta : String)
  | tool (session runId callId : String) (phase : ToolPhase)
  | approval (session approvalId runId summary command : String)
  | userInput (session inputId runId prompt : String)
deriving DecidableEq, Repr

def Event.lifecycle? : Event → Option LifecyclePhase
  | .lifecycle _ _ phase => some phase
  | _ => none

/-- Whether the phase ends a run. -/
def LifecyclePhase.isTerminal : LifecyclePhase → Bool
  | .start => false
  | .end => true
  | .error _ _ => true

/-! ## The word of a run -/

/-- How far a list of events has come as the word of one run. -/
inductive Word where
  | empty
  | open
  | closed (terminal : LifecyclePhase)
  | broken
deriving DecidableEq, Repr

namespace Word

def push : Word → Event → Word
  | .empty, e => if e.lifecycle? = some .start then .open else .broken
  | .open, e =>
    match e.lifecycle? with
    | none => .open
    | some .start => .broken
    | some phase => .closed phase
  | .closed _, _ => .broken
  | .broken, _ => .broken

end Word

def wordOf (evs : List Event) : Word := evs.foldl Word.push .empty

@[simp] theorem wordOf_nil : wordOf [] = .empty := rfl

@[simp] theorem wordOf_snoc (evs : List Event) (e : Event) :
    wordOf (evs ++ [e]) = (wordOf evs).push e := by
  simp [wordOf, List.foldl_append]

namespace Word

theorem push_ne_empty (w : Word) (e : Event) : w.push e ≠ .empty := by
  cases w with
  | empty =>
    simp only [push]
    split <;> simp
  | «open» =>
    simp only [push]
    split <;> simp
  | closed t => simp [push]
  | broken => simp [push]

theorem push_eq_open {w : Word} {e : Event} :
    w.push e = .open ↔
      (w = .empty ∧ e.lifecycle? = some .start) ∨ (w = .open ∧ e.lifecycle? = none) := by
  cases w with
  | empty => simp [push]
  | «open» =>
    cases h : e.lifecycle? with
    | none => simp [push, h]
    | some phase => cases phase <;> simp [push, h]
  | closed t => simp [push]
  | broken => simp [push]

theorem push_eq_closed {w : Word} {e : Event} {t : LifecyclePhase} :
    w.push e = .closed t ↔ w = .open ∧ e.lifecycle? = some t ∧ t.isTerminal = true := by
  cases w with
  | empty =>
    simp only [push]
    split <;> simp
  | «open» =>
    cases h : e.lifecycle? with
    | none => simp [push, h]
    | some phase =>
      cases phase with
      | start => cases t <;> simp [push, h, LifecyclePhase.isTerminal]
      | «end» => cases t <;> simp [push, h, LifecyclePhase.isTerminal]
      | error m k => cases t <;> simp [push, h, LifecyclePhase.isTerminal]
  | closed t' => simp [push]
  | broken => simp [push]

end Word

theorem wordOf_eq_empty {evs : List Event} : wordOf evs = .empty ↔ evs = [] := by
  cases evs using List.reverseRec with
  | nil => simp
  | append_singleton evs e => simp [Word.push_ne_empty]

theorem wordOf_eq_open {evs : List Event} :
    wordOf evs = .open ↔
      ∃ s mid, evs = s :: mid ∧ s.lifecycle? = some .start ∧ ∀ e ∈ mid, e.lifecycle? = none := by
  induction evs using List.reverseRec with
  | nil => simp
  | append_singleton evs e ih =>
    rw [wordOf_snoc, Word.push_eq_open, wordOf_eq_empty, ih]
    constructor
    · rintro (⟨rfl, he⟩ | ⟨⟨s, mid, rfl, hs, hmid⟩, he⟩)
      · exact ⟨e, [], rfl, he, by simp⟩
      · refine ⟨s, mid ++ [e], rfl, hs, ?_⟩
        intro x hx
        rcases List.mem_append.1 hx with hx | hx
        · exact hmid x hx
        · rw [List.mem_singleton.1 hx]
          exact he
    · rintro ⟨s, mid, hevs, hs, hmid⟩
      cases evs with
      | nil =>
        obtain ⟨rfl, -⟩ := List.cons_eq_cons.1 hevs
        exact Or.inl ⟨rfl, hs⟩
      | cons a as =>
        obtain ⟨rfl, rfl⟩ := List.cons_eq_cons.1 hevs
        exact Or.inr ⟨⟨a, as, rfl, hs, fun x hx => hmid x (List.mem_append_left _ hx)⟩,
          hmid e (by simp)⟩

/-- A closed word is a start, events that are no lifecycle events, and one terminal. -/
theorem wordOf_eq_closed {evs : List Event} {t : LifecyclePhase} :
    wordOf evs = .closed t ↔
      t.isTerminal = true ∧ ∃ s mid e, evs = s :: mid ++ [e] ∧ s.lifecycle? = some .start ∧
        (∀ x ∈ mid, x.lifecycle? = none) ∧ e.lifecycle? = some t := by
  cases evs using List.reverseRec with
  | nil => simp
  | append_singleton evs e =>
    rw [wordOf_snoc, Word.push_eq_closed, wordOf_eq_open]
    constructor
    · rintro ⟨⟨s, mid, rfl, hs, hmid⟩, he, ht⟩
      exact ⟨ht, s, mid, e, rfl, hs, hmid, he⟩
    · rintro ⟨ht, s, mid, e', hevs, hs, hmid, he⟩
      obtain ⟨rfl, rfl⟩ := List.append_singleton_inj.1 hevs
      exact ⟨⟨s, mid, rfl, hs, hmid⟩, he, ht⟩

end OhMyClaw
