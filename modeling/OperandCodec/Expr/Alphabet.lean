import Mathlib.Algebra.Group.Nat.Defs
import OperandCodec.Expr.Token
/-!
# What a source may be made of

The characters that a source may have, and the size that its numbers may
have, said of the text as a whole and not of a scanner that goes through it.
Digits belong to an identifier if a letter or an underscore stands right
before them, and otherwise they are a number (`IsNumber`). A word that
cannot be read comes with the error that reports it (`Unreadable`); of
several such words the leftmost is reported (`FirstUnreadable`).
-/

namespace OperandCodec

/-- The characters of sources: blanks, letters, digits, the underscore and seven symbols. -/
def Token.isSourceChar (c : Char) : Bool :=
  Text.isBlank c || c.isAlphanum || c == '_' || ['(', ')', '+', '-', '*', '/', '%'].contains c

/-- A run of digits between two parts of a text is a number: no digit goes on with it on either
side, and neither letter nor underscore stands right before it. -/
structure IsNumber (before digits after : List Char) : Prop where
  ne_nil : digits ≠ []
  digits : ∀ c ∈ digits, c.isDigit
  starts : ∀ c ∈ before.getLast?, (c.isAlphanum || c == '_') = false
  stops : ∀ c ∈ after.head?, c.isDigit = false

/-- A word between two parts of a text that cannot be read, and the error about it. -/
inductive Unreadable : List Char → List Char → List Char → LexError → Prop where
  | character {before after : List Char} {c : Char} : Token.isSourceChar c = false →
      Unreadable before [c] after (.unexpectedCharacter c (before.length + 1))
  | number {before digits after : List Char} : IsNumber before digits after →
      2 ^ 63 - 1 < Text.ofDigits 10 digits →
      Unreadable before digits after (.literalTooLarge (String.ofList digits) (before.length + 1))

/-- The error about the leftmost word of a text that cannot be read. -/
def FirstUnreadable (text : List Char) (e : LexError) : Prop :=
  ∃ before word after, text = before ++ word ++ after ∧ Unreadable before word after e ∧
    ∀ before' word' after' e', text = before' ++ word' ++ after' →
      Unreadable before' word' after' e' → before.length ≤ before'.length

/-- The scanner after a number of calls. -/
def Scanner.behind : Nat → Scanner → Scanner
  | 0, s => s
  | n + 1, s => behind n s.next.2

end OperandCodec
