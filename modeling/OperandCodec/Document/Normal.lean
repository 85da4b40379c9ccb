import OperandCodec.Document.Basic
import OperandCodec.Text.Blank
/-!
# Normal forms of documents

What of a document can make a difference to the opcode. Computations of
blanks count as none, and parameters count for nothing beside the bits of
computed inputs; the normal form has neither. All else is kept as it is
written, the blanks around a computation included.
-/

namespace OperandCodec

/-- A written computation; one of blanks is none. -/
def written? (source : Option String) : Option String :=
  source.filter (!Text.isAllBlank ·)

/-- The normal form of an argument. -/
def ArgumentDocument.normal (d : ArgumentDocument) : ArgumentDocument :=
  { d with computation := written? d.computation }

/-- The normal form of an operand. -/
def OperandDocument.normal : OperandDocument → OperandDocument
  | zero => zero
  | arguments args => arguments (args.map (·.normal))

/-- The normal form of inputs. -/
def InputsDocument.normal : InputsDocument → InputsDocument
  | zero => zero
  | declared _ (some bits) computation => declared [] (some bits) (written? computation)
  | declared params none computation => declared params none (written? computation)

/-- The normal form of outputs. -/
def OutputsDocument.normal : OutputsDocument → OutputsDocument
  | count n => count n
  | declared bits computation => declared bits (written? computation)

/-- The normal form of a document. -/
def Document.normal (d : Document) : Document :=
  { d with operand := d.operand.normal, inputs := d.inputs.normal, outputs := d.outputs.normal }

end OperandCodec
