import OperandCodec.Computation.Basic
/-!
# Opcode records

What is declared about one opcode: the layout of its operand word, its
inputs and its outputs. An operand is the sentinel zero or a list of named
arguments, each over a bit range; inputs and outputs are fixed or read from
bits. An argument and a computed arity may share bits; `Record.overlaps`
lists where they do.
-/

namespace OperandCodec

/-- The argument whose value is the number of inputs at the call. -/
def inputsName : String := "inputs"

/-- A named component of the operand word. -/
structure Argument where
  name : String
  desc : Option String
  bits : BitRange
  /-- The logical value of a raw value, over `arg`. -/
  computation : Option Computation
  /-- The permitted raw values. -/
  validRange : Option ValidRange
deriving BEq, Repr

/-- Whether an argument takes the number of inputs at the call. -/
def Argument.isInputs (a : Argument) : Bool :=
  a.name == inputsName

/-- The layout of the operand word. -/
inductive Operand where
  /-- No bits are used, and the word is zero. -/
  | zero
  | arguments (args : List Argument)
deriving BEq, Repr

/-- A declared input. -/
structure Parameter where
  name : String
  desc : Option String
  /-- Whether a call may go on with more inputs here. -/
  spread : Bool
deriving DecidableEq, Repr

/-- How the number of inputs is determined. -/
inductive Inputs where
  | zero
  | fixed (params : List Parameter)
  | computed (bits : BitRange) (computation : Option Computation)
deriving BEq, Repr

/-- How the number of outputs is determined. -/
inductive Outputs where
  | fixed (count : Nat)
  | computed (bits : BitRange) (computation : Option Computation)
deriving BEq, Repr

/-- Bits that an argument shares with a computed arity. -/
structure Overlap where
  argument : String
  argumentBits : BitRange
  arity : Arity
  arityBits : BitRange
deriving DecidableEq, Repr

/-- What is declared about an opcode. -/
structure Record where
  name : String
  desc : String
  operand : Operand
  inputs : Inputs
  outputs : Outputs
  aliases : List String
deriving BEq, Repr

/-- The bits of computed inputs. -/
def Inputs.bits? : Inputs → Option BitRange
  | computed bits _ => some bits
  | _ => none

/-- The bits of computed outputs. -/
def Outputs.bits? : Outputs → Option BitRange
  | computed bits _ => some bits
  | _ => none

namespace Record

/-- The arguments in declaration order; the sentinel zero has none. -/
def arguments (r : Record) : List Argument :=
  match r.operand with
  | .zero => []
  | .arguments args => args

/-- The argument of a name. -/
def argument? (r : Record) (name : String) : Option Argument :=
  r.arguments.find? (·.name == name)

/-- The primary name and the aliases. -/
def names (r : Record) : List String :=
  r.name :: r.aliases

/-- The bit ranges of the computed arities, inputs first. -/
def arityBits (r : Record) : List (Arity × BitRange) :=
  (r.inputs.bits?.map (Arity.inputs, ·)).toList ++ (r.outputs.bits?.map (Arity.outputs, ·)).toList

/-- Where arguments share bits with computed arities, in argument order. -/
def overlaps (r : Record) : List Overlap :=
  r.arguments.flatMap fun a =>
    r.arityBits.filterMap fun (arity, bits) =>
      if a.bits.overlaps bits then some ⟨a.name, a.bits, arity, bits⟩ else none

end Record
end OperandCodec
