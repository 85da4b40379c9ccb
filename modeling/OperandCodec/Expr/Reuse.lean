import OperandCodec.Expr.Parser
/-!
# Parsers that are asked again

A parser keeps the tokens it dropped, the levels it left open and the
operators it counted from one call to the next (`ParserState.after`). A level
is closed by counting one down, which makes sense only where one is counted:
here is the parser once more with a fault in place of that step where none
is (`Parser.wholeOr`).
-/

namespace OperandCodec

/-- The parser behind its next `n` calls. -/
def ParserState.after (v : Variable) : Nat → ParserState → ParserState
  | 0, s => s
  | n + 1, s => after v n (s.parse v).2

/-- What a parser answers to the call behind its next `n` calls. -/
def ParserState.outcome (v : Variable) (n : Nat) (s : ParserState) : Except ParseError Expr :=
  ((s.after v n).parse v).1

/-- From one state to the other tokens are dropped from the front, and none of them is the end. -/
def ParserState.Passes (s s' : ParserState) : Prop :=
  ∃ dropped, s.rest = dropped ++ s'.rest ∧ .eof ∉ dropped

namespace Parser

/-- Closes a level; where none is open, there is a fault. -/
def leaveOr (fault : ParserM Unit) : ParserM Unit := do
  if (← get).depth = 0 then fault else leave

/-- What `nested` reads, with a fault where no level is left to close. -/
def nestedOr (fault : ParserM Unit) (inner : ParserM Expr) : ParserM Expr := do
  advance
  enter
  let e ← inner
  leaveOr fault
  return e

/-- An operand, with a fault where no level is left to close. Only signs and parentheses have a
level. -/
def operandWithOr (fault : ParserM Unit) (v : Variable) (inner : ParserM Expr) :
    ParserM Expr := do
  match ← peek with
  | .minus => return (← nestedOr fault inner).minus
  | .plus => nestedOr fault inner
  | .openParen =>
    let e ← nestedOr fault (expression inner)
    close
    return e
  | _ => operandWith v inner

def operandOr (fault : ParserM Unit) (v : Variable) : Nat → ParserM Expr
  | 0 => operandWithOr fault v (throw .nestedTooDeep)
  | n + 1 => operandWithOr fault v (operandOr fault v n)

/-- One call of the parser, with a fault where no level is left to close. -/
def wholeOr (fault : ParserM Unit) (v : Variable) : ParserM Expr := do
  if (← peek) = .eof then throw .empty
  let e ← expression (operandOr fault v maxNesting)
  match ← peek with
  | .eof => return e
  | t => throw (.trailing t)

end Parser
end OperandCodec
