import OperandCodec.Record.Basic
import OperandCodec.Text.Blank
/-!
# Checked records

The constraints on a record, checked in a fixed order of which the first
violation is reported: the names, then the arguments in turn, then the
inputs and the outputs. An `Opcode` is a record without a flaw.
-/

namespace OperandCodec

/-- Whether a character may start the name of an opcode. -/
def isNameStart (c : Char) : Bool :=
  c.isAlpha || c == '_'

/-- Whether a character may go on with the name of an opcode. -/
def isNameRest (c : Char) : Bool :=
  c.isAlphanum || c == '-' || c == '_'

/-- Whether a text can name an opcode: letters, digits, hyphens and underscores, of which a digit or
a hyphen is not the first. -/
def isOpcodeName (s : String) : Bool :=
  match s.toList with
  | [] => false
  | c :: cs => isNameStart c && cs.all isNameRest

/-- Whether a text can name an argument or a parameter: at least two letters, digits, hyphens and
underscores, of which a hyphen is not the first; blanks may stand between. -/
def isArgumentName (s : String) : Bool :=
  match s.toList with
  | [] => false
  | c :: cs =>
    (c.isAlphanum || c == '_') &&
      cs.dropLast.all (fun c => isNameRest c || Text.isBlank c) &&
      cs.getLast?.any isNameRest

/-- A computation that is written over another variable than it has to be. -/
def variableFlaw? (wanted : Variable) : Option Computation → Option Flaw
  | some c => if c.var = wanted then none else some (.wrongVariable c.source c.var wanted)
  | none => none

/-- Whether the bounds of an entry are out of order. -/
def RangeEntry.isInverted : RangeEntry → Bool
  | exact _ => false
  | interval lo hi => hi.toNat < lo.toNat

/-- A valid range that is empty or has an inverted interval. -/
def validRangeFlaw? (argument : String) : Option ValidRange → Option Flaw
  | none => none
  | some r =>
    if r.entries.isEmpty then some (.emptyValidRange argument)
    else (r.entries.find? RangeEntry.isInverted).map (.invertedInterval argument ·)

namespace Argument

/-- The first flaw of an argument behind others. -/
def flaw? (earlier : List Argument) (a : Argument) : Option Flaw :=
  if !isArgumentName a.name then some (.argumentName a.name)
  else if earlier.any (·.name == a.name) then some (.repeatedArgument a.name)
  else match earlier.find? (·.bits.overlaps a.bits) with
    | some other => some (.sharedBits a.name a.bits other.name other.bits)
    | none => variableFlaw? .arg a.computation <|> validRangeFlaw? a.name a.validRange

/-- The first flaw of a list of arguments behind others. -/
def firstFlaw? (earlier : List Argument) : List Argument → Option Flaw
  | [] => none
  | a :: args => a.flaw? earlier <|> firstFlaw? (earlier ++ [a]) args

end Argument

/-- The first flaw of a list of parameters, of which only the last may be spread. -/
def Parameter.firstFlaw? : List Parameter → Option Flaw
  | [] => none
  | p :: ps =>
    if !isArgumentName p.name then some (.parameterName p.name)
    else if p.spread && !ps.isEmpty then some (.spreadNotLast p.name)
    else firstFlaw? ps

/-- The first flaw of inputs. -/
def Inputs.flaw? : Inputs → Option Flaw
  | zero => none
  | fixed params => Parameter.firstFlaw? params
  | computed _ c => variableFlaw? .bits c

/-- The first flaw of outputs. -/
def Outputs.flaw? : Outputs → Option Flaw
  | fixed _ => none
  | computed _ c => variableFlaw? .bits c

/-- The first flaw of a record. -/
def Record.flaw? (r : Record) : Option Flaw :=
  (r.names.find? (!isOpcodeName ·)).map .name <|>
    Argument.firstFlaw? [] r.arguments <|> r.inputs.flaw? <|> r.outputs.flaw?

/-- A record without a flaw. -/
structure Opcode extends Record where
  sound : toRecord.flaw? = none

namespace Opcode

/-- Opcodes are compared by their records. -/
instance : BEq Opcode :=
  ⟨fun a b => a.toRecord == b.toRecord⟩

/-- The opcode of a record, or the record's first flaw. -/
def ofRecord (r : Record) : Except Error Opcode :=
  match h : r.flaw? with
  | none => .ok ⟨r, h⟩
  | some flaw => .error (.invalidMetadata r.name flaw)

/-- The opcode of a name, an operand, inputs and outputs; it has no description and no aliases. -/
def ofLayout (name : String) (operand : Operand) (inputs : Inputs) (outputs : Outputs) :
    Except Error Opcode :=
  ofRecord ⟨name, "", operand, inputs, outputs, []⟩

/-- The opcode with another description. -/
def withDesc (op : Opcode) (desc : String) : Opcode :=
  ⟨{ op.toRecord with desc }, op.sound⟩

/-- The opcode with other aliases, or the first flaw that they bring. -/
def withAliases (op : Opcode) (aliases : List String) : Except Error Opcode :=
  ofRecord { op.toRecord with aliases }

end Opcode
end OperandCodec
