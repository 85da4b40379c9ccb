import OperandCodec.Document.Basic
import OperandCodec.Record.Basic
/-!
# Writing records as documents

The document that spells a record out, field by field. Everything that a
document may leave open is decided one way: bit ranges are pairs of their
ends, entries of valid ranges are lists of their bounds, computations are
their sources, and fixed inputs are parameters without bits.
-/

namespace OperandCodec

/-- The written pair of a bit range. -/
def BitRange.toPair (b : BitRange) : Nat × Nat :=
  (b.lo, b.hi)

/-- The written list of an entry. -/
def RangeEntry.toList : RangeEntry → List Nat
  | exact v => [v.toNat]
  | interval lo hi => [lo.toNat, hi.toNat]

namespace ArgumentDocument

/-- The document of an argument. -/
def ofArgument (a : Argument) : ArgumentDocument where
  bits := a.bits.toPair
  name := a.name
  desc := a.desc
  computation := a.computation.map (·.source)
  validRange := a.validRange.map fun r => r.entries.map RangeEntry.toList

end ArgumentDocument

/-- The document of an operand. -/
def OperandDocument.ofOperand : Operand → OperandDocument
  | .zero => zero
  | .arguments args => arguments (args.map .ofArgument)

/-- The document of a parameter. -/
def ParameterDocument.ofParameter (p : Parameter) : ParameterDocument :=
  ⟨p.name, p.desc, p.spread⟩

/-- The document of inputs. -/
def InputsDocument.ofInputs : Inputs → InputsDocument
  | .zero => zero
  | .fixed params => declared (params.map .ofParameter) none none
  | .computed bits c => declared [] bits.toPair (c.map (·.source))

/-- The document of outputs. -/
def OutputsDocument.ofOutputs : Outputs → OutputsDocument
  | .fixed n => count n
  | .computed bits c => declared bits.toPair (c.map (·.source))

/-- The document of a record. -/
def Document.ofRecord (r : Record) : Document where
  name := r.name
  desc := r.desc
  operand := .ofOperand r.operand
  inputs := .ofInputs r.inputs
  outputs := .ofOutputs r.outputs
  aliases := r.aliases

end OperandCodec
