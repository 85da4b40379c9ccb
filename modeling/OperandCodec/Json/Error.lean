import OperandCodec.Json.Basic
/-!
# What can be wrong with a JSON text

Syntax errors, and errors of shape: a field that is missing or repeated, or
a value of another type than the schema asks for.
-/

namespace OperandCodec

/-- What the schema asks for where a message names it. -/
inductive JsonWanted where
  | string
  | sequence
  | document
deriving DecidableEq, Repr

/-- The fields of an opcode document whose value has one of several shapes. -/
inductive JsonUnion where
  | operand
  | inputs
  | outputs
deriving DecidableEq, Repr

/-- Why a JSON text is no document. -/
inductive JsonError where
  | eofValue
  | eofList
  | eofObject
  | eofString
  | expectedValue
  | expectedKeyword
  | expectedColon
  | expectedCommaOrBrace
  | expectedCommaOrBracket
  | trailingComma
  | trailingCharacters
  | keyNotString
  | invalidNumber
  | numberOutOfRange
  | invalidEscape
  | controlCharacter
  | loneSurrogate
  | unfinishedSurrogate
  | tooDeep
  | missingField (name : String)
  | duplicateField (name : String)
  | wrongType (got : JsonShape) (wanted : JsonWanted)
  | tooShort (length : Nat)
  | tooLong (length : Nat)
  | noVariant (union : JsonUnion)
deriving DecidableEq, Repr

/-- The wording of what is wanted. -/
def JsonWanted.describe : JsonWanted → String
  | string => "a string"
  | sequence => "a sequence"
  | document => "struct OpMetaDocument"

/-- The wording of a union. -/
def JsonUnion.describe : JsonUnion → String
  | operand => "OperandDocument"
  | inputs => "InputDocument"
  | outputs => "OutputDocument"

/-- The wording of an error. -/
def JsonError.message : JsonError → String
  | eofValue => "EOF while parsing a value"
  | eofList => "EOF while parsing a list"
  | eofObject => "EOF while parsing an object"
  | eofString => "EOF while parsing a string"
  | expectedValue => "expected value"
  | expectedKeyword => "expected ident"
  | expectedColon => "expected `:`"
  | expectedCommaOrBrace => "expected `,` or `\x7d`"
  | expectedCommaOrBracket => "expected `,` or `]`"
  | trailingComma => "trailing comma"
  | trailingCharacters => "trailing characters"
  | keyNotString => "key must be a string"
  | invalidNumber => "invalid number"
  | numberOutOfRange => "number out of range"
  | invalidEscape => "invalid escape"
  | controlCharacter => "control character (\\u0000-\\u001F) found while parsing a string"
  | loneSurrogate => "lone leading surrogate in hex escape"
  | unfinishedSurrogate => "unexpected end of hex escape"
  | tooDeep => "recursion limit exceeded"
  | missingField name => s!"missing field `{name}`"
  | duplicateField name => s!"duplicate field `{name}`"
  | wrongType got wanted => s!"invalid type: {got.describe}, expected {wanted.describe}"
  | tooShort length =>
    s!"invalid length {length}, expected struct OpMetaDocument with 6 elements"
  | tooLong length => s!"invalid length {length}, expected fewer elements in array"
  | noVariant union => s!"data did not match any variant of untagged enum {union.describe}"

end OperandCodec
