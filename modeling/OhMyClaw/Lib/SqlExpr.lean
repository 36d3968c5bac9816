import Mathlib.Data.List.Basic
import Mathlib.Tactic.Common

/-!
# Expressions of SQL and their depth

An engine that walks its expressions by recursion refuses those that are too deep.  Parentheses
add no depth, and a chain of operators nests to the left: each operand behind the first one adds a
level.

    depth_chain      a chain is as deep as it is long
-/

namespace Sql

inductive BinOp where
  | and | or | eq | like | ftsMatch
deriving DecidableEq, Repr

inductive Expr where
  | text (s : String)
  | number (n : Int)
  /-- `?1`, `?2`, … -/
  | param (no : Nat)
  /-- `table.name`. -/
  | column (table name : String)
  | binary (op : BinOp) (left right : Expr)
deriving DecidableEq, Repr

/-- A column is a dot above two names. -/
def Expr.depth : Expr → Nat
  | .text _ | .number _ | .param _ => 1
  | .column _ _ => 2
  | .binary _ left right => max left.depth right.depth + 1

/-- `e OP e₁ OP … OP eₙ`. -/
def Expr.chain (op : BinOp) (e : Expr) (es : List Expr) : Expr := es.foldl (.binary op) e

/-- A chain whose operands are no deeper than its first one. -/
theorem Expr.depth_chain (op : BinOp) {e : Expr} {es : List Expr} (h : ∀ x ∈ es, x.depth ≤ e.depth) :
    (chain op e es).depth = e.depth + es.length := by
  induction es generalizing e with
  | nil => rfl
  | cons x es ih =>
    have hx : (binary op e x).depth = e.depth + 1 := by
      have := h x List.mem_cons_self
      simp only [depth]
      omega
    have hrest : ∀ y ∈ es, y.depth ≤ (binary op e x).depth := by
      intro y hy
      have := h y (List.mem_cons_of_mem _ hy)
      omega
    show (chain op (binary op e x) es).depth = _
    rw [ih hrest, hx, List.length_cons]
    omega

end Sql
