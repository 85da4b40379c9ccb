import OperandCodec.Record.Check
import OperandCodec.Record.Decode
import OperandCodec.Record.Encode
/-!
# Queries about an opcode

Everything that can be asked of a loaded opcode, and the answers.
-/

namespace OperandCodec

/-- A question about an opcode. -/
inductive OpcodeQuery where
  | all
  | describe
  | argument (name : String)
  | build (args : List (String × Value)) (inputs : Nat)
  | read (w : Word)
  | render (w : Word)
  | inputs (w : Option Word)
  | outputs (w : Option Word)
  /-- Builds a word, then reads and renders it. -/
  | roundTrip (args : List (String × Value)) (inputs : Nat)

/-- An answer about an opcode. -/
inductive OpcodeAnswer where
  | all (op : Opcode)
  | text (s : String)
  | argument (a : Option Argument)
  | word (w : Word)
  | decoded (d : Decoded)
  | inputs (a : InputArity)
  | outputs (n : Nat)
  | roundTrip (w : Word) (read : Except Error Decoded) (render : Except Error String)

/-- Answers a question about an opcode. -/
def OpcodeQuery.answer {m : Type → Type} [Monad m] [MonadComputation m] (op : Opcode) :
    OpcodeQuery → ExceptT Error m OpcodeAnswer
  | all => return .all op
  | describe => return .text op.describe
  | argument name => return .argument (op.argument? name)
  | build args n => do return .word (← op.build (Assignment.ofPairs args) n)
  | read w => do return .decoded (← MonadExcept.ofExcept (op.read w))
  | render w => do return .text (← MonadExcept.ofExcept (op.render w))
  | inputs w => do return .inputs (← MonadExcept.ofExcept (op.inputs.resolve w))
  | outputs w => do return .outputs (← MonadExcept.ofExcept (op.outputs.resolve w))
  | roundTrip args n => do
    let w ← op.build (Assignment.ofPairs args) n
    return .roundTrip w (op.read w) (op.render w)

end OperandCodec
