import OperandCodec.Value
/-!
# Expressions

The tree of a computation: literals, the one bound variable, negation and
five binary operators. `Expr.text` writes a tree with every operation
parenthesised, so that no two trees share a text, and `Expr.nesting` says
how deep the parentheses and minus signs of that text lie.
-/

namespace OperandCodec

/-- The single name that a computation may mention. -/
inductive Variable where
  /-- The bits read for a computed arity. -/
  | bits
  /-- The raw value of an operand argument. -/
  | arg
deriving DecidableEq, Repr

/-- The name of a variable in a source text. -/
def Variable.name : Variable → String
  | bits => "bits"
  | arg => "arg"

/-- The binary operators. -/
inductive BinaryOp where
  | add
  | sub
  | mul
  | div
  | rem
deriving DecidableEq, Repr

/-- The sign of an operator. -/
def BinaryOp.symbol : BinaryOp → String
  | add => "+"
  | sub => "-"
  | mul => "*"
  | div => "/"
  | rem => "%"

/-- An arithmetic expression over one variable. -/
inductive Expr where
  | literal (n : Value)
  | var
  | negate (e : Expr)
  | binary (op : BinaryOp) (lhs rhs : Expr)
deriving DecidableEq, Repr

namespace Expr

/-- The tree of a minus sign over `e`; a literal takes the sign into itself. -/
def minus : Expr → Expr
  | literal n => literal (-n)
  | e => negate e

/-- The text of a tree, with the variable written as `name`. -/
def textWith (name : String) : Expr → String
  | literal n => n.text
  | var => name
  | negate e => "(-" ++ e.textWith name ++ ")"
  | binary op l r => "(" ++ l.textWith name ++ " " ++ op.symbol ++ " " ++ r.textWith name ++ ")"

/-- The text of a tree, whatever its variable is called. -/
def text (e : Expr) : String :=
  e.textWith "$"

/-- How deep the parentheses and minus signs of the text of a tree are nested. -/
def nesting : Expr → Nat
  | literal n => if n < 0 then 1 else 0
  | var => 0
  | negate e => 2 + e.nesting
  | binary _ l r => 1 + max l.nesting r.nesting

/-- The number of binary operators in a tree. -/
def operators : Expr → Nat
  | literal _ | var => 0
  | negate e => e.operators
  | binary _ l r => 1 + l.operators + r.operators

example : (minus (literal 3)).text = "-3" := by decide
example : (negate (binary .mul var (literal (-1)))).text = "(-($ * -1))" := by decide

end Expr
end OperandCodec
