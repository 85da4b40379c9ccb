import OperandCodec.Error
/-!
# Computations

A computation is a source text together with its tree and the variable that
it is written over. Two computations are the same when source and variable
are: the tree follows from them.
-/

namespace OperandCodec

/-- A parsed source over a variable. -/
structure Computation where
  source : String
  var : Variable
  expr : Expr
deriving Repr

namespace Computation

/-- Computations are compared by source and variable. -/
instance : BEq Computation :=
  ⟨fun a b => a.var == b.var && a.source == b.source⟩

/-- The computation of a source and the tree that was found for it. -/
def ofTree (source : String) (v : Variable) (tree : Except ParseError Expr) :
    Except Error Computation :=
  match tree with
  | .ok e => .ok ⟨source, v, e⟩
  | .error e => .error (.evaluation source e none)

/-- The error of a fault in a computation. -/
def faultError (c : Computation) (fault : Fault) : Error :=
  .arithmetic c.source fault none

/-- The value of a computation where its variable is `x`. -/
def apply (c : Computation) (x : Value) : Except Error Value :=
  (c.expr.eval x).mapError c.faultError

/-- The value of an optional computation; an absent one is the identity. -/
def applyOptional (c : Option Computation) (x : Value) : Except Error Value :=
  match c with
  | some c => c.apply x
  | none => .ok x

end Computation
end OperandCodec
