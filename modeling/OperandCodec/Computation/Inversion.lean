import OperandCodec.Expr.Eval
import OperandCodec.Word
/-!
# Inversion

The raw values that an expression maps to a target, found by trying all raw
values of a width. A raw value at which the expression has a fault is
passed over, unless they all have one; then the fault of raw value zero
stands for them.
-/

namespace OperandCodec

/-- The outcome of a search. -/
inductive Inversion where
  /-- The raw values that are mapped to the target, in ascending order. -/
  | found (raws : List Word)
  /-- Every raw value has a fault. -/
  | failed (fault : Fault)
deriving DecidableEq, Repr

namespace Expr

/-- The raw values of a width, in ascending order. A width above sixteen counts as sixteen. -/
def domain (width : Nat) : List Word :=
  (List.range (1 <<< min width 16)).map (BitVec.ofNat 16)

/-- Whether an expression has a value at a raw value. -/
def defined (e : Expr) (raw : Word) : Bool :=
  (e.eval raw.toValue).isOk

/-- Whether an expression maps a raw value to a target. -/
def hits (e : Expr) (target : Value) (raw : Word) : Bool :=
  match e.eval raw.toValue with
  | .ok v => v == target
  | .error _ => false

/-- Searches the raw values of a width for those that are mapped to the target. -/
def search (e : Expr) (target : Value) (width : Nat) : Inversion :=
  match e.eval (Word.toValue 0) with
  | .ok _ => .found ((domain width).filter (e.hits target))
  | .error fault =>
    if (domain width).any e.defined then .found ((domain width).filter (e.hits target))
    else .failed fault

end Expr
end OperandCodec
