import OperandCodec.Computation.Basic
import OperandCodec.Computation.Inversion
/-!
# Who answers for computations

Two questions about computations cost time: which tree a source has, and
which raw values a computation maps to a target. Everything that asks them
is written over a monad that answers (`MonadComputation`). `Id` answers
afresh each time; a session answers from its caches (`OperandCodec.Session`).
That the two cannot be told apart is a statement about the same functions
run in two monads.
-/

namespace OperandCodec

/-- A monad that knows the trees of sources and inverts computations. -/
class MonadComputation (m : Type → Type) where
  /-- The tree of a source over a variable. -/
  tree : String → Variable → m (Except ParseError Expr)
  /-- The raw values of a width that a computation maps to a target. -/
  invert : Computation → Value → Nat → m Inversion

/-- Every answer afresh. -/
instance : MonadComputation Id where
  tree := Expr.ofSource
  invert c := c.expr.search

namespace Computation

variable {m : Type → Type} [Monad m] [MonadComputation m]

/-- The computation of a source over a variable. -/
def compile (source : String) (v : Variable) : ExceptT Error m Computation := do
  let tree ← (MonadComputation.tree source v : m _)
  MonadExcept.ofExcept (ofTree source v tree)

/-- The raw values of a width that a computation maps to a target. -/
def invert (c : Computation) (target : Value) (width : Nat) : ExceptT Error m (List Word) := do
  match ← (MonadComputation.invert c target width : m _) with
  | .found raws => return raws
  | .failed fault => throw (c.faultError fault)

/-- The value of a source where its variable is `x`. -/
def evaluate (source : String) (v : Variable) (x : Value) : ExceptT Error m Value := do
  let c ← compile source v
  MonadExcept.ofExcept (c.apply x)

end Computation
end OperandCodec
