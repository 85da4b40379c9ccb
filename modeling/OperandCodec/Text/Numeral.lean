/-!
# Numerals

Reading a written number. A numeral is a non-empty run of digits with any
number of leading zeros; an unsigned numeral may carry a plus sign, a
signed one either sign. A number out of the reader's range is refused, as
is any other character.
-/

namespace OperandCodec
namespace Text

/-- The value of a digit in bases up to sixteen; letters may have either case. -/
def digitValue (c : Char) : Nat :=
  if c.isDigit then c.toNat - '0'.toNat
  else if c.isLower then c.toNat - 'a'.toNat + 10
  else c.toNat - 'A'.toNat + 10

/-- Whether a character is a digit of the base. -/
def isDigitOf (base : Nat) (c : Char) : Bool :=
  c.isAlphanum && digitValue c < base

/-- The number that a run of digits denotes, most significant digit first. -/
def ofDigits (base : Nat) (digits : List Char) : Nat :=
  digits.foldl (fun n c => base * n + digitValue c) 0

/-- Reads a non-empty run of digits. -/
def readDigits? (base : Nat) (s : List Char) : Option Nat :=
  if !s.isEmpty && s.all (isDigitOf base) then some (ofDigits base s) else none

/-- Reads a number of at most `max`, with an optional plus sign. -/
def readUnsigned? (base max : Nat) (s : List Char) : Option Nat :=
  let digits := match s with
    | '+' :: ds => ds
    | ds => ds
  (readDigits? base digits).filter (· ≤ max)

/-- Reads a decimal number with an optional sign. -/
def readSigned? (s : List Char) : Option Int :=
  match s with
  | '-' :: ds => (readDigits? 10 ds).map fun n => -(n : Int)
  | '+' :: ds => (readDigits? 10 ds).map Int.ofNat
  | ds => (readDigits? 10 ds).map Int.ofNat

/-- The largest size that a count on the command line, in the environment or in a document can have. -/
def maxCount : Nat := 0xFFFFFFFFFFFFFFFF

example : readUnsigned? 16 0xFFFF "+00aF".toList = some 175 := by decide
example : readUnsigned? 10 9 "10".toList = none := by decide
example : readSigned? "-007".toList = some (-7) := by decide
example : readSigned? "+-7".toList = none := by decide

end Text
end OperandCodec
