import Mathlib.Data.List.TakeDrop

/-!
# Buffered reading up to a delimiter

A buffered reader holds what its last read returned and what of it was consumed is gone.  Reading up
to a delimiter goes on with further reads until one of them brings it; a read that returns nothing is
the end of the stream.  How the stream comes in reads makes no difference.

    stream_readUntil    what is returned is what was consumed
    readUntil_found     the line up to the delimiter, however it came
-/

namespace BufRead

variable {α : Type*} [DecidableEq α]

/-- What was read and is not consumed, and what the reads to come return. -/
structure Reader (α : Type*) where
  buffered : List α
  reads : List (List α)
deriving DecidableEq, Repr

/-- Everything that is still to be consumed. -/
def Reader.stream (r : Reader α) : List α := r.buffered ++ r.reads.flatten

/-- Up to the first delimiter and with it, and what is behind. -/
def cut (delimiter : α) : List α → Option (List α × List α)
  | [] => none
  | x :: xs =>
    if x = delimiter then some ([x], xs) else (cut delimiter xs).map fun r => (x :: r.1, r.2)

theorem cut_of_mem {delimiter : α} {line : List α} (h : delimiter ∉ line) (rest : List α) :
    cut delimiter (line ++ delimiter :: rest) = some (line ++ [delimiter], rest) := by
  induction line with
  | nil => simp [cut]
  | cons x line ih =>
    obtain ⟨hx, hline⟩ := not_or.1 (mt List.mem_cons.2 h)
    simp [cut, Ne.symm hx, ih hline]

theorem cut_of_notMem {delimiter : α} {xs : List α} (h : delimiter ∉ xs) : cut delimiter xs = none := by
  induction xs with
  | nil => rfl
  | cons x xs ih =>
    obtain ⟨hx, hxs⟩ := not_or.1 (mt List.mem_cons.2 h)
    simp [cut, Ne.symm hx, ih hxs]

theorem cut_eq_some {delimiter : α} {xs line rest : List α} (h : cut delimiter xs = some (line, rest)) :
    xs = line ++ rest := by
  induction xs generalizing line with
  | nil => exact absurd h (by simp [cut])
  | cons x xs ih =>
    by_cases hx : x = delimiter
    · simp only [cut, if_pos hx, Option.some.injEq, Prod.mk.injEq] at h
      obtain ⟨rfl, rfl⟩ := h
      rfl
    · simp only [cut, if_neg hx, Option.map_eq_some_iff, Prod.mk.injEq] at h
      obtain ⟨⟨front, back⟩, hcut, rfl, rfl⟩ := h
      rw [ih hcut]
      rfl

/-- `available` is in the buffer; the reads follow. -/
def readUntil (delimiter : α) : List (List α) → List α → List α × Reader α
  | [], available =>
    match cut delimiter available with
    | some (line, rest) => (line, { buffered := rest, reads := [] })
    | none => (available, { buffered := [], reads := [] })
  | next :: reads, available =>
    match cut delimiter available with
    | some (line, rest) => (line, { buffered := rest, reads := next :: reads })
    | none =>
      if next = [] then (available, { buffered := [], reads })
      else
        let r := readUntil delimiter reads next
        (available ++ r.1, r.2)

def Reader.readUntil (r : Reader α) (delimiter : α) : List α × Reader α :=
  BufRead.readUntil delimiter r.reads r.buffered

/-- What is returned is what was consumed. -/
theorem stream_readUntil (delimiter : α) (reads : List (List α)) (available : List α) :
    (readUntil delimiter reads available).1 ++ (readUntil delimiter reads available).2.stream =
      available ++ reads.flatten := by
  induction reads generalizing available with
  | nil =>
    unfold readUntil
    split
    · next line rest hcut => simp [Reader.stream, cut_eq_some hcut]
    · simp [Reader.stream]
  | cons next reads ih =>
    unfold readUntil
    split
    · next line rest hcut => simp [Reader.stream, cut_eq_some hcut]
    · by_cases hnext : next = []
      · simp [hnext, Reader.stream]
      · simp [hnext, ih next]

theorem readUntil_here {delimiter : α} {line : List α} (h : delimiter ∉ line) (reads : List (List α))
    (back : List α) :
    readUntil delimiter reads (line ++ delimiter :: back) =
      (line ++ [delimiter], { buffered := back, reads }) := by
  cases reads <;> simp [readUntil, cut_of_mem h]

/-- Where the buffer has no delimiter, the next read is appended to it. -/
theorem readUntil_next {delimiter : α} {available next : List α} (h : delimiter ∉ available)
    (hnext : next ≠ []) (reads : List (List α)) :
    readUntil delimiter (next :: reads) available =
      (available ++ (readUntil delimiter reads next).1, (readUntil delimiter reads next).2) := by
  simp [readUntil, cut_of_notMem h, hnext]

/-- Where the stream has the delimiter, the line up to it is read, and nothing more is consumed. -/
theorem readUntil_found {delimiter : α} {reads : List (List α)} {available line rest : List α}
    (hreads : [] ∉ reads) (hline : delimiter ∉ line)
    (h : available ++ reads.flatten = line ++ delimiter :: rest) :
    ∃ r : Reader α, readUntil delimiter reads available = (line ++ [delimiter], r) ∧ r.stream = rest ∧
      [] ∉ r.reads := by
  induction reads generalizing available line with
  | nil =>
    obtain rfl : available = line ++ delimiter :: rest := by simpa using h
    exact ⟨_, readUntil_here hline [] rest, by simp [Reader.stream], hreads⟩
  | cons next reads ih =>
    obtain ⟨hnext, hreads'⟩ := not_or.1 (mt List.mem_cons.2 hreads)
    rcases List.append_eq_append_iff.1 h with ⟨line', rfl, hrest⟩ | ⟨back, rfl, hrest⟩
    · -- the buffer ends before the delimiter
      obtain ⟨havailable, hline'⟩ := not_or.1 (mt List.mem_append.2 hline)
      obtain ⟨r, hr, hstream, hfull⟩ := ih hreads' hline' hrest
      refine ⟨r, ?_, hstream, hfull⟩
      rw [readUntil_next havailable (Ne.symm hnext), hr, List.append_assoc]
    · cases back with
      | nil =>
        obtain ⟨r, hr, hstream, hfull⟩ := ih hreads' (by simp) (show _ = [] ++ _ from hrest.symm)
        refine ⟨r, ?_, hstream, hfull⟩
        rw [List.append_nil, readUntil_next hline (Ne.symm hnext), hr, List.nil_append]
      | cons d back =>
        obtain ⟨rfl, rfl⟩ := List.cons_eq_cons.1 hrest
        exact ⟨_, readUntil_here hline _ back, rfl, hreads⟩

/-- At the end of the stream there is nothing to read. -/
theorem readUntil_end {delimiter : α} {r : Reader α} (h : r.stream = []) (hreads : [] ∉ r.reads) :
    r.readUntil delimiter = ([], r) := by
  obtain ⟨buffered, reads⟩ := r
  obtain ⟨rfl, hflatten⟩ := List.append_eq_nil_iff.1 h
  cases reads with
  | nil => rfl
  | cons next reads =>
    obtain rfl : next = [] := List.flatten_eq_nil_iff.1 hflatten next List.mem_cons_self
    exact absurd List.mem_cons_self hreads

end BufRead
