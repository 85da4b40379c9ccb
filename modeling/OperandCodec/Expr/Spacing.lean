import Mathlib.Data.List.Chain
import OperandCodec.Expr.Token
/-!
# Tokens with blanks between them

A text that is put together from tokens. Each token is written down, an
integer with any number of zeros in front; blanks may stand before the first
token and behind each of them. They have to where the first of two tokens
would go on with the second (`Token.runsInto`).
-/

namespace OperandCodec

/-- Blanks, or nothing. -/
abbrev Gap := { blanks : List Char // ∀ c ∈ blanks, Text.isBlank c }

namespace Token

/-- A letter or an underscore, then letters, digits and underscores. -/
def isIdentifier (name : String) : Bool :=
  name.toList.head?.any isIdentStart && name.toList.all isIdentRest

/-- The tokens that can be written down: an integer has no sign of its own, and the end is no
word. -/
def isWritable : Token → Bool
  | ident name => isIdentifier name
  | int n => decide (0 ≤ n.toInt)
  | eof => false
  | _ => true

/-- The characters of a token, with zeros in front of an integer. -/
def written (zeros : Nat) : Token → List Char
  | int n => List.replicate zeros '0' ++ n.text.toList
  | t => t.text.toList

/-- The characters with which a token goes on for as long as they follow it. -/
def goesOn : Token → Char → Bool
  | ident _ => isIdentRest
  | int _ => Char.isDigit
  | _ => fun _ => false

/-- Whether a token goes on with another that follows it at once. -/
def runsInto : Token → Token → Bool
  | ident _, ident _ | ident _, int _ | int _, int _ => true
  | _, _ => false

end Token

/-- A token as it is written down. -/
structure WrittenToken where
  token : Token
  writable : token.isWritable
  /-- How many zeros stand before an integer. -/
  zeros : Nat
  /-- What stands behind the token. -/
  gap : Gap

namespace WrittenToken

/-- The characters of the token. -/
def word (w : WrittenToken) : List Char :=
  w.token.written w.zeros

/-- The token and the blanks behind it. -/
def text (w : WrittenToken) : List Char :=
  w.word ++ w.gap.1

/-- Blanks, and tokens behind them. -/
def source (lead : Gap) (ws : List WrittenToken) : String :=
  String.ofList (lead.1 ++ ws.flatMap text)

/-- Nothing follows at once that a token would go on with. -/
def KeptApart (ws : List WrittenToken) : Prop :=
  ws.IsChain fun w w' => w.token.runsInto w'.token → w.gap.1 ≠ []

end WrittenToken
end OperandCodec
