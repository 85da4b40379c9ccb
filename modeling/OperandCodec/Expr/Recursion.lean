import OperandCodec.Expr.Eval
/-!
# Recursion over a tree

Evaluating a tree, printing it and letting it go are recursions of one
shape: something is made of each node from what was made of its operands
(`Recursion`). `Recursion.run` follows the tree down to its leaves, and
`Recursion.runWithin` does so with a bound on how deep its calls may be
nested. The bound that a tree needs is its height, whatever the recursion
(`runWithin_eq_some_iff`).
-/

namespace OperandCodec

namespace Expr

/-- The number of edges on the longest way from the root of a tree to a leaf. -/
def height : Expr → Nat
  | literal _ | var => 0
  | negate e => e.height + 1
  | binary _ l r => max l.height r.height + 1

/-- The ways from the root of a tree to its leaves, each with its nodes in order. -/
def paths : Expr → List (List Expr)
  | literal n => [[literal n]]
  | var => [[var]]
  | negate e => e.paths.map (negate e :: ·)
  | binary op l r => (l.paths ++ r.paths).map (binary op l r :: ·)

/-- Whether a node is a negation. -/
def isNegation : Expr → Bool
  | negate _ => true
  | _ => false

/-- Whether a node is a binary operator with its operands. -/
def isOperation : Expr → Bool
  | binary .. => true
  | _ => false

end Expr

/-- What is made of a node from what was made of its operands. -/
structure Recursion (α : Type) where
  literal : Value → α
  var : α
  negate : α → α
  binary : BinaryOp → α → α → α

namespace Recursion

variable {α : Type}

/-- What is made of a tree. -/
def run (f : Recursion α) : Expr → α
  | .literal n => f.literal n
  | .var => f.var
  | .negate e => f.negate (f.run e)
  | .binary op l r => f.binary op (f.run l) (f.run r)

/-- What is made of a tree if the call for a node may have the given number of calls nested in it,
and none where it needs more. -/
def runWithin (f : Recursion α) : Nat → Expr → Option α
  | _, .literal n => some (f.literal n)
  | _, .var => some f.var
  | 0, .negate _ => none
  | n + 1, .negate e => do
    return f.negate (← f.runWithin n e)
  | 0, .binary .. => none
  | n + 1, .binary op l r => do
    return f.binary op (← f.runWithin n l) (← f.runWithin n r)

/-- The value of a tree. A fault of the left operand makes the right one unneeded; here both are
looked at, which nests no fewer calls. -/
def evaluation (x : Value) : Recursion (Except Fault Value) where
  literal n := .ok n
  var := .ok x
  negate a := do checked (-(← a).toInt)
  binary op a b := do op.apply (← a) (← b)

/-- The text of a tree. -/
def printing (name : String) : Recursion String where
  literal n := n.text
  var := name
  negate a := "(-" ++ a ++ ")"
  binary op a b := "(" ++ a ++ " " ++ op.symbol ++ " " ++ b ++ ")"

/-- **A recursion needs as many nested calls as the tree is high.** -/
theorem runWithin_eq_some_iff {f : Recursion α} {n : Nat} {e : Expr} {a : α} :
    f.runWithin n e = some a ↔ e.height ≤ n ∧ f.run e = a := by
  induction e generalizing n a with
  | literal | var => simp [runWithin, run, Expr.height]
  | negate e ih =>
    cases n with
    | zero => simp [runWithin, Expr.height]
    | succ n => simp [runWithin, run, Expr.height, Option.bind_eq_some_iff, ih, and_assoc]
  | binary op l r ihl ihr =>
    cases n with
    | zero => simp [runWithin, Expr.height]
    | succ n =>
      rw [Expr.height, Nat.add_le_add_iff_right, Nat.max_le]
      simp [runWithin, run, Option.bind_eq_some_iff, ihl, ihr, and_assoc]

theorem run_evaluation (x : Value) (e : Expr) : (evaluation x).run e = e.eval x := by
  induction e with
  | literal | var => rfl
  | negate e ih =>
    rw [run, ih]
    rfl
  | binary op l r ihl ihr =>
    rw [run, ihl, ihr]
    rfl

theorem run_printing (name : String) (e : Expr) : (printing name).run e = e.textWith name := by
  induction e with
  | literal | var => rfl
  | negate e ih =>
    rw [run, ih]
    rfl
  | binary op l r ihl ihr =>
    rw [run, ihl, ihr]
    rfl

end Recursion
end OperandCodec
