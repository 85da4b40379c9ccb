import OperandCodec.Expr.Token
/-!
# Parsing

The tree of a token list, by the grammar

    expression := term (('+' | '-') term)*
    term       := operand (('*' | '/' | '%') operand)*
    operand    := ('+' | '-') operand | INTEGER | VARIABLE | '(' expression ')'

with binary operators grouped to the left. Two limits bound the tree: no
token stands inside more than `maxNesting` signs and parentheses, and there
are at most `maxOperators` binary operators. A parser can be asked again
after it has answered: the tokens it consumed, the nesting it left open and
the operators it counted stay with it (`ParserState`), after an error too.

`operand` recurses on the number of levels that are left to open. The
nesting counted in the state never exceeds the levels already opened, so
the level below the last one is never reached (`operand` at `0`).
-/

namespace OperandCodec

/-- How many signs and parentheses may enclose a token. -/
def maxNesting : Nat := 64

/-- How many binary operators an expression may have. -/
def maxOperators : Nat := 256

/-- Why a source has no tree. -/
inductive ParseError where
  | unreadable (e : LexError)
  | empty
  | unexpected (t : Token)
  | unexpectedEnd
  | unknownSymbol (name : String) (bound : Variable)
  | unclosed
  | expectedClose (found : Token)
  | trailing (t : Token)
  | nestedTooDeep
  | tooManyOperators
deriving DecidableEq, Repr

/-- The wording of a parser's error. -/
def ParseError.message : ParseError → String
  | unreadable e => e.message
  | empty => "empty expression"
  | unexpected t => s!"unexpected '{t.text}'"
  | unexpectedEnd => "unexpected end of input"
  | unknownSymbol name bound => s!"unknown symbol '{name}' (only '{bound.name}' is bound here)"
  | unclosed => "unexpected end of input, expected ')'"
  | expectedClose found => s!"expected ')', found '{found.text}'"
  | trailing t => s!"unexpected '{t.text}' after complete expression"
  | nestedTooDeep => s!"expression nested deeper than {maxNesting} levels"
  | tooManyOperators => s!"expression has more than {maxOperators} operators"

/-- What a parser carries from call to call. -/
structure ParserState where
  /-- The tokens that are left. -/
  rest : List Token
  /-- The signs and parentheses that are open. -/
  depth : Nat
  /-- The binary operators met so far. -/
  operators : Nat
deriving DecidableEq, Repr

/-- The parser before its first call. -/
def ParserState.ofTokens (tokens : List Token) : ParserState :=
  ⟨tokens, 0, 0⟩

/-- A step of parsing; its failure keeps the state it failed in. -/
abbrev ParserM (α : Type) := ExceptT ParseError (StateM ParserState) α

namespace Parser

/-- The token at the front; behind the last one stands the end. -/
def peek : ParserM Token := do
  return (← get).rest.headD .eof

/-- Drops the token at the front. -/
def advance : ParserM Unit :=
  modify fun s => { s with rest := s.rest.tail }

/-- Opens a sign or parenthesis. -/
def enter : ParserM Unit := do
  modify fun s => { s with depth := s.depth + 1 }
  if (← get).depth > maxNesting then throw .nestedTooDeep

/-- Closes a sign or parenthesis. -/
def leave : ParserM Unit :=
  modify fun s => { s with depth := s.depth - 1 }

/-- Counts a binary operator. -/
def countOperator : ParserM Unit := do
  modify fun s => { s with operators := s.operators + 1 }
  if (← get).operators > maxOperators then throw .tooManyOperators

/-- The operator that a token stands for in a sum. -/
def additive? : Token → Option BinaryOp
  | .plus => some .add
  | .minus => some .sub
  | _ => none

/-- The operator that a token stands for in a product. -/
def multiplicative? : Token → Option BinaryOp
  | .star => some .mul
  | .slash => some .div
  | .percent => some .rem
  | _ => none

/-- Goes on with a chain whose tree so far is `lhs`, for at most `n` more operators. -/
def chainFrom (op? : Token → Option BinaryOp) (part : ParserM Expr) : Nat → Expr → ParserM Expr
  | 0, _ => throw .tooManyOperators
  | n + 1, lhs => do
    match op? (← peek) with
    | none => return lhs
    | some op =>
      advance
      countOperator
      let rhs ← part
      chainFrom op? part n (.binary op lhs rhs)

/-- Parts joined by operators, grouped to the left. The operator behind the last admissible one
is where `countOperator` fails, so the chain never runs out of turns. -/
def chain (op? : Token → Option BinaryOp) (part : ParserM Expr) : ParserM Expr := do
  let first ← part
  chainFrom op? part (maxOperators + 1) first

/-- A sum of products of operands. -/
def expression (operand : ParserM Expr) : ParserM Expr :=
  chain additive? (chain multiplicative? operand)

/-- What stands behind a sign or an opening parenthesis: `inner`, one level deeper. -/
def nested (inner : ParserM Expr) : ParserM Expr := do
  advance
  enter
  let e ← inner
  leave
  return e

/-- The closing parenthesis. -/
def close : ParserM Unit := do
  match ← peek with
  | .closeParen => advance
  | .eof => throw .unclosed
  | t => throw (.expectedClose t)

/-- An operand, where `inner` reads the operands one level deeper. -/
def operandWith (v : Variable) (inner : ParserM Expr) : ParserM Expr := do
  match ← peek with
  | .minus => return (← nested inner).minus
  | .plus => nested inner
  | .openParen =>
    let e ← nested (expression inner)
    close
    return e
  | .int n =>
    advance
    return .literal n
  | .ident name =>
    if name = v.name then
      advance
      return .var
    else throw (.unknownSymbol name v)
  | .eof => throw .unexpectedEnd
  | t => throw (.unexpected t)

/-- An operand with the given number of levels left to open. -/
def operand (v : Variable) : Nat → ParserM Expr
  | 0 => operandWith v (throw .nestedTooDeep)
  | n + 1 => operandWith v (operand v n)

/-- One call of the parser: an expression up to the end of the tokens. -/
def whole (v : Variable) : ParserM Expr := do
  if (← peek) = .eof then throw .empty
  let e ← expression (operand v maxNesting)
  match ← peek with
  | .eof => return e
  | t => throw (.trailing t)

end Parser

/-- One call of a parser, and the parser behind it. -/
def ParserState.parse (s : ParserState) (v : Variable) : Except ParseError Expr × ParserState :=
  (Parser.whole v).run.run s

/-- The outcomes of the next `n` calls of a parser. -/
def ParserState.calls (v : Variable) : Nat → ParserState → List (Except ParseError Expr)
  | 0, _ => []
  | n + 1, s => (s.parse v).1 :: calls v n (s.parse v).2

/-- The tree of a token list. -/
def Expr.ofTokens (tokens : List Token) (v : Variable) : Except ParseError Expr :=
  ((ParserState.ofTokens tokens).parse v).1

/-- The tree of a source. The whole source is read into tokens before any is parsed. -/
def Expr.ofSource (source : String) (v : Variable) : Except ParseError Expr :=
  match Token.ofSource source with
  | .error e => .error (.unreadable e)
  | .ok tokens => Expr.ofTokens tokens v

end OperandCodec
