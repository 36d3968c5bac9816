import Mathlib.Data.List.Basic

/-!
# Ring buffers with a running count

A ring keeps the last `cap` items pushed and counts all of them, so that an item keeps its
global index when older ones are evicted.  `Holds r xs` says that the ring `r` is what
pushing `xs` leaves behind; `skip n` reads the items whose global index is at least `n`.
-/

universe u

/-- A ring of capacity `cap`: what it still has, oldest first, and how much it has seen. -/
structure RingBuf (α : Type u) (cap : Nat) where
  buf : List α
  pushed : Nat
  bounded : buf.length = min pushed cap
deriving DecidableEq, Repr

namespace RingBuf

variable {α : Type u} {cap : Nat}

def empty : RingBuf α cap := { buf := [], pushed := 0, bounded := by simp }

/-- Add an item; a full ring drops its oldest one. -/
def push [Fact (0 < cap)] (r : RingBuf α cap) (x : α) : RingBuf α cap :=
  { buf := (if r.buf.length = cap then r.buf.tail else r.buf) ++ [x]
    pushed := r.pushed + 1
    bounded := by
      have hcap : 0 < cap := Fact.out
      have hr := r.bounded
      split <;> simp only [List.length_append, List.length_tail, List.length_singleton] <;> omega }

/-- The global index of the oldest item left. -/
def start (r : RingBuf α cap) : Nat := r.pushed - r.buf.length

/-- The items left whose global index is at least `n`. -/
def skip (r : RingBuf α cap) (n : Nat) : List α := r.buf.drop (n - r.start)

/-- The ring is what pushing `xs` into an empty one leaves. -/
structure Holds (r : RingBuf α cap) (xs : List α) : Prop where
  pushed : r.pushed = xs.length
  buf : r.buf = xs.drop (xs.length - cap)

theorem holds_empty : (empty : RingBuf α cap).Holds [] := ⟨rfl, by simp [empty]⟩

theorem Holds.push [Fact (0 < cap)] {r : RingBuf α cap} {xs : List α} (h : r.Holds xs) (x : α) :
    (r.push x).Holds (xs ++ [x]) := by
  have hcap : 0 < cap := Fact.out
  have hlen := r.bounded
  rw [h.pushed] at hlen
  refine ⟨by simp [RingBuf.push, h.pushed], ?_⟩
  show (if r.buf.length = cap then r.buf.tail else r.buf) ++ [x] = _
  by_cases hfull : r.buf.length = cap
  · have hn : (xs ++ [x]).length - cap = xs.length - cap + 1 := by
      simp only [List.length_append, List.length_singleton]
      omega
    rw [if_pos hfull, hn, List.drop_append_of_le_length (by omega), h.buf, List.tail_drop]
  · have hn : (xs ++ [x]).length - cap = 0 := by
      simp only [List.length_append, List.length_singleton]
      omega
    have hxs : xs.length - cap = 0 := by omega
    rw [if_neg hfull, hn, h.buf, hxs, List.drop_zero, List.drop_zero]

/-- What is left from the global index `n` on: nothing below `n` and nothing evicted. -/
theorem Holds.skip_eq {r : RingBuf α cap} {xs : List α} (h : r.Holds xs) (n : Nat) :
    r.skip n = xs.drop (max n (xs.length - cap)) := by
  have hlen := r.bounded
  rw [h.pushed] at hlen
  have hstart : r.start = xs.length - cap := by
    unfold start
    rw [h.pushed]
    omega
  unfold skip
  rw [hstart, h.buf, List.drop_drop]
  congr 1
  omega

end RingBuf
