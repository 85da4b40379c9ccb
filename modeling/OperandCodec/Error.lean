import OperandCodec.Expr.Eval
import OperandCodec.Expr.Parser
import OperandCodec.Json.Error
import OperandCodec.ValidRange
/-!
# Errors

Everything that loading, encoding and decoding can refuse, by cause. An
error that comes up below the level of an opcode (`range`, `arithmetic`,
`evaluation`) is given its place by the level that knows it (`inPlace`);
the others name their opcode from the start.
-/

namespace OperandCodec

/-- What is wrong with a record, with the document it is read from, or with its place in a table. -/
inductive Flaw where
  | unreadable (e : JsonError)
  | bits (owner : String) (e : RangeError)
  | boundTooLarge (argument : String) (bound : Nat)
  | entryLength (argument : String) (length : Nat)
  | inputsWithoutBits (source : String)
  | outputsWithoutBits
  | name (name : String)
  | argumentName (name : String)
  | repeatedArgument (name : String)
  | sharedBits (argument : String) (bits : BitRange) (other : String) (otherBits : BitRange)
  | wrongVariable (source : String) (bound wanted : Variable)
  | emptyValidRange (argument : String)
  | invertedInterval (argument : String) (entry : RangeEntry)
  | parameterName (name : String)
  | spreadNotLast (name : String)
  | nameTaken (name owner : String)
deriving DecidableEq, Repr

/-- The wording of a flaw. -/
def Flaw.message : Flaw → String
  | unreadable e => e.message
  | bits owner e => s!"'{owner}': {e.message}"
  | boundTooLarge argument bound =>
    s!"operand argument '{argument}' validRange bound {bound} exceeds 65535"
  | entryLength argument length =>
    s!"operand argument '{argument}' validRange entry has {length} elements, expected 1 or 2"
  | inputsWithoutBits source => s!"inputs computation '{source}' requires a bits range"
  | outputsWithoutBits => "computed outputs require a bits range"
  | name n => s!"'{n}' is not a valid opcode name or alias"
  | argumentName n => s!"'{n}' is not a valid operand argument name"
  | repeatedArgument n => s!"operand argument '{n}' is declared twice"
  | sharedBits argument b other b' =>
    s!"operand argument '{argument}' bits {b.text} overlap argument '{other}' bits " ++ b'.text
  | wrongVariable source bound wanted =>
    s!"computation '{source}' is bound to '{bound.name}' but must use '{wanted.name}'"
  | emptyValidRange argument => s!"operand argument '{argument}' has an empty validRange"
  | invertedInterval argument entry =>
    s!"operand argument '{argument}' validRange entry {entry.text} has min above max"
  | parameterName n => s!"'{n}' is not a valid input parameter name"
  | spreadNotLast n => s!"only the last input parameter may be spread, not '{n}'"
  | nameTaken n owner => s!"name '{n}' is already used by opcode '{owner}'"

/-- The part of an opcode that was being worked on. -/
inductive Subject where
  | argument (name : String)
  | computed (arity : Arity)
deriving DecidableEq, Repr

/-- An opcode, and the part of it that was being worked on. -/
structure Place where
  opcode : String
  subject : Subject
deriving DecidableEq, Repr

/-- A place as the beginning of a message. -/
def Place.text (p : Place) : String :=
  match p.subject with
  | .argument name => s!"opcode '{p.opcode}' argument '{name}': "
  | .computed arity => s!"opcode '{p.opcode}' computed {arity.name}: "

/-- Why a request is refused. -/
inductive Error where
  | range (e : RangeError) (place : Option Place)
  | validation (opcode argument : String) (value : Value) (permitted : ValidRange)
  | arithmetic (source : String) (fault : Fault) (place : Option Place)
  | evaluation (source : String) (e : ParseError) (place : Option Place)
  | nonInvertible (opcode argument source : String) (target : Value) (count : Nat)
  | missingArgument (opcode argument : String)
  | missingOperand (arity : Arity)
  | invalidMetadata (opcode : String) (flaw : Flaw)
deriving DecidableEq, Repr

/-- The kinds of error. -/
inductive ErrorKind where
  | range
  | validation
  | arithmetic
  | evaluation
  | nonInvertibleComputation
  | missingArgument
  | missingOperand
  | invalidMetadata
deriving DecidableEq, Repr

namespace Error

/-- The kind of an error. -/
def kind : Error → ErrorKind
  | range .. => .range
  | validation .. => .validation
  | arithmetic .. => .arithmetic
  | evaluation .. => .evaluation
  | nonInvertible .. => .nonInvertibleComputation
  | missingArgument .. => .missingArgument
  | missingOperand .. => .missingOperand
  | invalidMetadata .. => .invalidMetadata

/-- Says where an error came up, if it does not say so yet. -/
def inPlace (place : Place) : Error → Error
  | range e _ => range e (some place)
  | arithmetic source fault _ => arithmetic source fault (some place)
  | evaluation source e _ => evaluation source e (some place)
  | e => e

/-- The beginning of a message that may have a place. -/
def placeText (place : Option Place) : String :=
  (place.map Place.text).getD ""

/-- The wording of an error. -/
def message : Error → String
  | range e place => "Range error: " ++ placeText place ++ e.message
  | validation opcode argument value permitted =>
    s!"Validation error: opcode '{opcode}' argument '{argument}' value {value.text} is outside " ++
      s!"valid range {permitted.text}"
  | arithmetic source fault place =>
    s!"Arithmetic error in '{source}': " ++ placeText place ++ fault.message
  | evaluation source e place =>
    s!"Evaluation error in '{source}': " ++ placeText place ++ e.message
  | nonInvertible opcode argument source target count =>
    s!"Non-invertible computation: opcode '{opcode}' argument '{argument}' computation " ++
      s!"'{source}' has {count} raw values mapping to {target.text}"
  | missingArgument opcode argument =>
    s!"Missing argument: opcode '{opcode}' requires operand argument '{argument}'"
  | missingOperand arity =>
    s!"Missing operand: computed {arity.name} need a concrete operand word"
  | invalidMetadata opcode flaw =>
    s!"Invalid metadata for opcode '{opcode}': {flaw.message}"

end Error
end OperandCodec
