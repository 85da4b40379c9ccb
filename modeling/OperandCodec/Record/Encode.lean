import OperandCodec.Computation.Monad
import OperandCodec.Record.Basic
/-!
# Encoding

From logical values to the operand word. Each argument in turn goes through
four steps: its logical value is looked up, its computation is inverted, the
raw value is checked against the valid range, and it is packed. Several raw
values may be mapped to the logical value; those in the valid range are
eligible, and there has to be exactly one. The first argument that fails
decides the error, and no word comes out.
-/

namespace OperandCodec

/-- Logical values by argument name. -/
abbrev Assignment := String → Option Value

/-- The assignment that a list of pairs makes; the last pair of a name counts. -/
def Assignment.ofPairs (pairs : List (String × Value)) : Assignment :=
  fun name => pairs.reverse.lookup name

namespace Argument

/-- The logical value asked for: the number of inputs at the call, or the value assigned. -/
def requested (opcode : String) (args : Assignment) (inputs : Nat) (a : Argument) :
    Except Error Value :=
  if a.isInputs then
    match Value.ofInt? inputs with
    | some v => .ok v
    | none => .error (.range (.countTooLarge inputs) none)
  else
    match args a.name with
    | some v => .ok v
    | none => .error (.missingArgument opcode a.name)

/-- The raw values that the valid range permits. -/
def eligible (a : Argument) (raws : List Word) : List Word :=
  raws.filter fun raw => ValidRange.permits a.validRange raw.toValue

/-- The one raw value among those that are mapped to the logical value. A single one that is not
eligible is still chosen, for the check of the valid range to name it. -/
def choose (opcode : String) (a : Argument) (c : Computation) (target : Value) (raws : List Word) :
    Except Error Value :=
  match raws, a.eligible raws with
  | _, [raw] => .ok raw.toValue
  | [raw], [] => .ok raw.toValue
  | raws, eligible =>
    let count := if eligible.isEmpty then raws.length else eligible.length
    .error (.nonInvertible opcode a.name c.source target count)

/-- A raw value that the valid range permits. -/
def permitted (opcode : String) (a : Argument) (raw : Value) : Except Error Value :=
  match a.validRange with
  | some r => if r.contains raw then .ok raw else .error (.validation opcode a.name raw r)
  | none => .ok raw

variable {m : Type → Type} [Monad m] [MonadComputation m]

/-- The raw value of an argument. -/
def encode (opcode : String) (args : Assignment) (inputs : Nat) (a : Argument) :
    ExceptT Error m Value := do
  let logical ← MonadExcept.ofExcept (a.requested opcode args inputs)
  let raw ← match a.computation with
    | none => pure logical
    | some c => do
      let raws ← c.invert logical a.bits.width
      MonadExcept.ofExcept (a.choose opcode c logical raws)
  MonadExcept.ofExcept (a.permitted opcode raw)

/-- Packs the raw value of an argument into a word. -/
def packInto (opcode : String) (args : Assignment) (inputs : Nat) (w : Word) (a : Argument) :
    ExceptT Error m Word :=
  tryCatch
    (do
      let raw ← a.encode opcode args inputs
      MonadExcept.ofExcept ((w.pack a.bits raw).mapError (.range · none)))
    fun e => throw (e.inPlace ⟨opcode, .argument a.name⟩)

end Argument

namespace Record

variable {m : Type → Type} [Monad m] [MonadComputation m]

/-- The operand word for an assignment and a number of inputs. -/
def build (r : Record) (args : Assignment) (inputs : Nat) : ExceptT Error m Word :=
  r.arguments.foldlM (fun w a => a.packInto r.name args inputs w) 0

end Record
end OperandCodec
