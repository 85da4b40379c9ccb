import OperandCodec.Computation.Inversion
/-!
# Searching in one pass

The search as one pass over the numbers of a width. The pass keeps three
things of the candidates behind it: those that hit the target, the first
fault, and whether any of them had a value at all. Only at the end do these
three decide whether the search has failed.
-/

namespace OperandCodec

/-- What a pass has seen of the candidates behind it. -/
structure Sweep where
  /-- Those that hit the target, the earliest first. -/
  raws : List Word
  firstFault : Option Fault
  evaluated : Bool
deriving DecidableEq, Repr

namespace Sweep

/-- A pass that has seen nothing yet. -/
def start : Sweep :=
  ⟨[], none, false⟩

/-- Looks at the next candidate. -/
def visit (e : Expr) (target : Value) (s : Sweep) (candidate : Nat) : Sweep :=
  match e.eval (Int64.ofNat candidate) with
  | .ok v =>
    { s with
      raws := if v = target then s.raws ++ [BitVec.ofNat 16 candidate] else s.raws
      evaluated := true }
  | .error fault => { s with firstFault := s.firstFault <|> some fault }

/-- What a pass comes to: it has failed where it has met faults and nothing else. -/
def outcome (s : Sweep) : Inversion :=
  match s.firstFault, s.evaluated with
  | some fault, false => .failed fault
  | _, _ => .found s.raws

end Sweep

/-- The pass over the numbers of a width. -/
def Expr.sweep (e : Expr) (target : Value) (width : Nat) : Sweep :=
  (List.range (1 <<< min width 16)).foldl (Sweep.visit e target) .start

end OperandCodec
