/-!
# Opcode documents

An opcode record as its author writes it: bit ranges are pairs, valid ranges
lists of lists, computations source texts, and the sentinel zero may stand
for an operand or for inputs.
-/

namespace OperandCodec

/-- An argument as it is written. -/
structure ArgumentDocument where
  bits : Nat × Nat
  name : String
  desc : Option String
  computation : Option String
  validRange : Option (List (List Nat))
deriving DecidableEq, Repr

/-- The operand as it is written. -/
inductive OperandDocument where
  | zero
  | arguments (args : List ArgumentDocument)
deriving DecidableEq, Repr

/-- A parameter as it is written. -/
structure ParameterDocument where
  name : String
  desc : Option String
  spread : Bool
deriving DecidableEq, Repr

/-- The inputs as they are written. Bits make them computed, whatever parameters stand beside. -/
inductive InputsDocument where
  | zero
  | declared (params : List ParameterDocument) (bits : Option (Nat × Nat))
      (computation : Option String)
deriving DecidableEq, Repr

/-- The outputs as they are written. -/
inductive OutputsDocument where
  | count (n : Nat)
  | declared (bits : Option (Nat × Nat)) (computation : Option String)
deriving DecidableEq, Repr

/-- An opcode as it is written. -/
structure Document where
  name : String
  desc : String
  operand : OperandDocument
  inputs : InputsDocument
  outputs : OutputsDocument
  aliases : List String
deriving DecidableEq, Repr

end OperandCodec
