import OperandCodec.Record.Basic
/-!
# Arities

How many inputs and outputs an opcode has at a given operand word. A fixed
arity needs no word; a computed one is read from its bits and put through
its computation.
-/

namespace OperandCodec

/-- The number of inputs, with the parameters that declare it. -/
structure InputArity where
  count : Nat
  params : List Parameter
deriving DecidableEq, Repr

namespace InputArity

/-- Whether a call may have more inputs than are counted. -/
def isVariadic (a : InputArity) : Bool :=
  a.params.getLast?.any (·.spread)

/-- A parameter as a message names it. -/
def paramText (p : Parameter) : String :=
  if p.spread then "..." ++ p.name else p.name

/-- The number of inputs, followed by the parameters if there are any. -/
def text (a : InputArity) : String :=
  if a.params.isEmpty then toString a.count
  else s!"{a.count} (" ++ ", ".intercalate (a.params.map paramText) ++ ")"

end InputArity

/-- The count that a word holds for a computed arity. -/
def computedCount (arity : Arity) (bits : BitRange) (c : Option Computation) (word : Option Word) :
    Except Error Nat := do
  let some word := word | throw (.missingOperand arity)
  let raw := word.unpack bits
  let count ← Computation.applyOptional c raw.toValue
  if count.toInt < 0 then throw (.range (.negativeCount arity count raw) none)
  return count.toInt.toNat

/-- The inputs at a word. -/
def Inputs.resolve (inputs : Inputs) (word : Option Word) : Except Error InputArity :=
  match inputs with
  | zero => .ok ⟨0, []⟩
  | fixed params => .ok ⟨params.length, params⟩
  | computed bits c => (computedCount .inputs bits c word).map (⟨·, []⟩)

/-- The outputs at a word. -/
def Outputs.resolve (outputs : Outputs) (word : Option Word) : Except Error Nat :=
  match outputs with
  | fixed count => .ok count
  | computed bits c => computedCount .outputs bits c word

end OperandCodec
