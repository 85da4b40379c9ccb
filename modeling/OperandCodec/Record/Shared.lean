import OperandCodec.Record.Arity
/-!
# Bits shared with an arity

What it is for an argument to share bits with a computed arity, without a
comparison of end points, and what it is for two words to have the same
arity.
-/

namespace OperandCodec

/-- The argument and the arity that share bits. -/
def Overlap.pair (o : Overlap) : String × Arity :=
  (o.argument, o.arity)

namespace Record

/-- The bits of an arity, if it is computed. -/
def arityBits? (r : Record) : Arity → Option BitRange
  | .inputs => r.inputs.bits?
  | .outputs => r.outputs.bits?

/-- Each argument with each arity: in argument order, and inputs before outputs. -/
def arityPairs (r : Record) : List (String × Arity) :=
  r.arguments.flatMap fun a => [(a.name, .inputs), (a.name, .outputs)]

/-- What an overlap has to say: the ranges of an argument and of a computed arity have a position
in common. -/
def IsOverlap (r : Record) (o : Overlap) : Prop :=
  ∃ a ∈ r.arguments, a.name = o.argument ∧ a.bits = o.argumentBits ∧
    r.arityBits? o.arity = some o.arityBits ∧ ∃ i, i ∈ o.argumentBits ∧ i ∈ o.arityBits

/-- An arity is resolved to the same at two words, be it a count or an error. -/
def ResolvesAlike (r : Record) (w w' : Word) : Arity → Prop
  | .inputs => r.inputs.resolve (some w) = r.inputs.resolve (some w')
  | .outputs => r.outputs.resolve (some w) = r.outputs.resolve (some w')

end Record
end OperandCodec
