import OperandCodec.Record.Arity
/-!
# Decoding

From the operand word to logical values and arities. The first failure
decides, in the order arguments, inputs, outputs; it says where it came up.
Rendering writes the values in declaration order and leaves out the
argument that the call implies.
-/

namespace OperandCodec

/-- The logical view of an operand word. -/
structure Decoded where
  /-- The values by argument name, sorted by name. -/
  arguments : List (String × Value)
  inputs : InputArity
  outputs : Nat
deriving DecidableEq, Repr

/-- A decoded word on one line. -/
def Decoded.text (d : Decoded) : String :=
  "\x7b" ++ " ".intercalate (d.arguments.map fun (name, v) => s!"{name}={v.text}") ++
    "\x7d" ++ s!" inputs: {d.inputs.text} outputs: {d.outputs}"

/-- The value of an argument in a word. -/
def Argument.decode (a : Argument) (w : Word) : Except Error Value :=
  Computation.applyOptional a.computation (w.unpack a.bits).toValue

namespace Record

/-- The values of the arguments in a word, in declaration order. -/
def values (r : Record) (w : Word) : Except Error (List (String × Value)) :=
  r.arguments.mapM fun a => do
    let v ← (a.decode w).mapError (·.inPlace ⟨r.name, .argument a.name⟩)
    return (a.name, v)

/-- The logical view of a word. -/
def read (r : Record) (w : Word) : Except Error Decoded := do
  let values ← r.values w
  let inputs ← (r.inputs.resolve w).mapError (·.inPlace ⟨r.name, .computed .inputs⟩)
  let outputs ← (r.outputs.resolve w).mapError (·.inPlace ⟨r.name, .computed .outputs⟩)
  return ⟨values.mergeSort fun a b => a.1 ≤ b.1, inputs, outputs⟩

/-- The name of the opcode, followed by the values of its arguments if there are any. -/
def render (r : Record) (w : Word) : Except Error String := do
  let decoded ← r.read w
  let shown := r.arguments.filter (!·.isInputs)
  let values := shown.filterMap fun a => decoded.arguments.lookup a.name
  if values.isEmpty then return r.name
  else return s!"{r.name}<" ++ " ".intercalate (values.map Value.text) ++ ">"

/-- The line of an argument in a listing. -/
def argumentLine (a : Argument) : String :=
  s!"\n    {a.name} bits {a.bits.text}" ++
    ((a.computation.map fun c => s!" computation '{c.source}'").getD "") ++
    ((a.validRange.map fun range => s!" validRange {range.text}").getD "")

/-- An opcode as a listing shows it. -/
def describe (r : Record) : String :=
  r.name ++
    (if r.aliases.isEmpty then "" else " (aliases: " ++ ", ".intercalate r.aliases ++ ")") ++
    match r.operand with
    | .zero => "\n    operand: 0"
    | .arguments args => String.join (args.map argumentLine)

end Record
end OperandCodec
