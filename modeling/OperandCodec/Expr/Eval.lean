import OperandCodec.Expr.Basic
/-!
# Evaluation

The value of an expression at a value of its variable. Evaluation is
checked: a result outside the 64-bit integers, a zero divisor and the
remainder of the least value by `-1` are faults. `Expr.exact` evaluates the
same tree over the unbounded integers, where only a zero divisor has no
answer.
-/

namespace OperandCodec

/-- Why an expression has no value. -/
inductive Fault where
  | divisionByZero
  | moduloByZero
  | overflow
deriving DecidableEq, Repr

/-- The wording of a fault. -/
def Fault.message : Fault → String
  | divisionByZero => "division by zero"
  | moduloByZero => "modulo by zero"
  | overflow => "integer overflow"

/-- An integer as a value, or an overflow. -/
def checked (n : Int) : Except Fault Value :=
  match Value.ofInt? n with
  | some v => .ok v
  | none => .error .overflow

namespace BinaryOp

/-- The checked operation: division truncates toward zero, and a remainder has the sign of its
dividend. -/
def apply (op : BinaryOp) (a b : Value) : Except Fault Value :=
  match op with
  | add => checked (a.toInt + b.toInt)
  | sub => checked (a.toInt - b.toInt)
  | mul => checked (a.toInt * b.toInt)
  | div => if b = 0 then .error .divisionByZero else checked (a.toInt.tdiv b.toInt)
  | rem =>
    if b = 0 then .error .moduloByZero
    else if a = Int64.minValue ∧ b = -1 then .error .overflow
    else checked (a.toInt.tmod b.toInt)

/-- The operation on unbounded integers; a zero divisor has no result. -/
def exact (op : BinaryOp) (a b : Int) : Option Int :=
  match op with
  | add => some (a + b)
  | sub => some (a - b)
  | mul => some (a * b)
  | div => if b = 0 then none else some (a.tdiv b)
  | rem => if b = 0 then none else some (a.tmod b)

end BinaryOp

namespace Expr

/-- The value of a tree where its variable has the value `x`. -/
def eval (x : Value) : Expr → Except Fault Value
  | literal n => .ok n
  | var => .ok x
  | negate e => do checked (-(← e.eval x).toInt)
  | binary op l r => do
    let a ← l.eval x
    let b ← r.eval x
    op.apply a b

/-- The value of a tree over the unbounded integers. -/
def exact (x : Int) : Expr → Option Int
  | literal n => some n.toInt
  | var => some x
  | negate e => (e.exact x).map (- ·)
  | binary op l r => do
    let a ← l.exact x
    let b ← r.exact x
    op.exact a b

example : (binary .div (literal (-7)) (literal 2)).eval 0 = .ok (-3) := rfl
example : (binary .rem (literal (-7)) (literal 2)).eval 0 = .ok (-1) := rfl
example : (negate (literal Int64.minValue)).eval 0 = .error .overflow := rfl

end Expr
end OperandCodec
