import OperandCodec.Computation.Monad
import OperandCodec.Document.Basic
import OperandCodec.Record.Check
/-!
# From documents to opcodes

Turns a written document into a checked opcode. Pairs become bit ranges,
lists become valid ranges and sources become computations, in a fixed order
whose first failure decides: the arguments in turn, each with its bits, its
valid range and its computation, then the inputs, the outputs, and last the
record as a whole. A computation of blanks counts as none.
-/

namespace OperandCodec

/-- The bit range of a written pair. -/
def convertBits (opcode owner : String) (bits : Nat × Nat) : Except Error BitRange :=
  (BitRange.ofPair? bits.1 bits.2).mapError fun e => .invalidMetadata opcode (.bits owner e)

/-- A written bound. -/
def convertBound (opcode argument : String) (n : Nat) : Except Error Word :=
  if n ≤ 0xFFFF then .ok (BitVec.ofNat 16 n)
  else .error (.invalidMetadata opcode (.boundTooLarge argument n))

/-- A written entry of a valid range. -/
def convertEntry (opcode argument : String) (entry : List Nat) : Except Error RangeEntry :=
  match entry with
  | [v] => do return .exact (← convertBound opcode argument v)
  | [lo, hi] => do
    return .interval (← convertBound opcode argument lo) (← convertBound opcode argument hi)
  | _ => .error (.invalidMetadata opcode (.entryLength argument entry.length))

/-- A written valid range. -/
def convertValidRange (opcode argument : String) (entries : List (List Nat)) :
    Except Error ValidRange := do
  return ⟨← entries.mapM (convertEntry opcode argument)⟩

variable {m : Type → Type} [Monad m] [MonadComputation m]

/-- A written computation; one of blanks is none. -/
def compileOptional (place : Place) (source : Option String) (v : Variable) :
    ExceptT Error m (Option Computation) := do
  match source.filter (!Text.isAllBlank ·) with
  | none => return none
  | some source =>
    let c ← tryCatch (Computation.compile source v) fun e => throw (e.inPlace place)
    return some c

/-- A written argument. -/
def ArgumentDocument.convert (opcode : String) (d : ArgumentDocument) :
    ExceptT Error m Argument := do
  let bits ← MonadExcept.ofExcept (convertBits opcode d.name d.bits)
  let validRange ← MonadExcept.ofExcept (d.validRange.mapM (convertValidRange opcode d.name))
  let computation ← compileOptional ⟨opcode, .argument d.name⟩ d.computation .arg
  return ⟨d.name, d.desc, bits, computation, validRange⟩

/-- A written operand. -/
def OperandDocument.convert (opcode : String) : OperandDocument → ExceptT Error m Operand
  | zero => return .zero
  | arguments args => do return .arguments (← args.mapM (·.convert opcode))

/-- A written parameter. -/
def ParameterDocument.convert (d : ParameterDocument) : Parameter :=
  ⟨d.name, d.desc, d.spread⟩

/-- Written inputs. -/
def InputsDocument.convert (opcode : String) : InputsDocument → ExceptT Error m Inputs
  | zero => return .zero
  | declared _ (some bits) computation => do
    let bits ← MonadExcept.ofExcept (convertBits opcode "inputs" bits)
    return .computed bits (← compileOptional ⟨opcode, .computed .inputs⟩ computation .bits)
  | declared params none computation =>
    match computation.filter (!Text.isAllBlank ·) with
    | some source => throw (.invalidMetadata opcode (.inputsWithoutBits source))
    | none => return .fixed (params.map (·.convert))

/-- Written outputs. -/
def OutputsDocument.convert (opcode : String) : OutputsDocument → ExceptT Error m Outputs
  | count n => return .fixed n
  | declared (some bits) computation => do
    let bits ← MonadExcept.ofExcept (convertBits opcode "outputs" bits)
    return .computed bits (← compileOptional ⟨opcode, .computed .outputs⟩ computation .bits)
  | declared none _ => throw (.invalidMetadata opcode .outputsWithoutBits)

/-- The opcode of a written document. -/
def Document.convert (d : Document) : ExceptT Error m Opcode := do
  let operand ← d.operand.convert d.name
  let inputs ← d.inputs.convert d.name
  let outputs ← d.outputs.convert d.name
  MonadExcept.ofExcept (Opcode.ofRecord ⟨d.name, d.desc, operand, inputs, outputs, d.aliases⟩)

end OperandCodec
