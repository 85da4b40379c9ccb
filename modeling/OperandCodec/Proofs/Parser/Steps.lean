import OperandCodec.Proofs.Parser.Runs
/-!
# The parser step by step

A parser is put together from few steps. It drops a token only where it has
seen that the token is not the end, and it closes a level only behind what
it opened the level for. So what those steps have, and sequences of steps
have where each step has it, every call of a parser has (`Stepwise.whole`).
-/

namespace OperandCodec

open OperandCodec.Parser

/-- A property that steps of a parser may have at a state, and that is kept where they are put
together. -/
structure Stepwise (P : ∀ {α : Type}, ParserM α → ParserState → Prop) : Prop where
  pure : ∀ {α : Type} (a : α) (s : ParserState), P (Pure.pure a) s
  throw : ∀ {α : Type} (e : ParseError) (s : ParserState), P (throw e : ParserM α) s
  bind : ∀ {α β : Type} {x : ParserM α} {f : α → ParserM β} {s : ParserState}, P x s →
    (∀ a s', runFrom x s = (.ok a, s') → P (f a) s') → P (x >>= f) s
  /-- A look at the next token. -/
  peek_bind : ∀ {β : Type} {f : Token → ParserM β} {s : ParserState},
    P (f (s.rest.headD .eof)) s → P (peek >>= f) s
  /-- A token that is not the end is dropped. -/
  advance : ∀ {s : ParserState}, s.rest.headD .eof ≠ .eof → P advance s
  countOperator : ∀ s : ParserState, P countOperator s
  /-- A level is opened and closed. -/
  nested : ∀ {inner : ParserM Expr} {s : ParserState}, (∀ s, P inner s) →
    s.rest.headD .eof ≠ .eof → P (nested inner) s

namespace Stepwise

variable {P : ∀ {α : Type}, ParserM α → ParserState → Prop} (h : Stepwise P)
variable {op? : Token → Option BinaryOp} {part inner : ParserM Expr} {v : Variable}

include h

theorem close (s : ParserState) : P close s := by
  refine h.peek_bind ?_
  cases hnext : s.rest.headD .eof with
  | closeParen => exact h.advance (hnext ▸ Token.noConfusion)
  | _ => exact h.throw _ s

theorem chainFrom (hpart : ∀ s, P part s) (heof : op? .eof = none) (n : Nat) (lhs : Expr)
    (s : ParserState) : P (chainFrom op? part n lhs) s := by
  induction n generalizing lhs s with
  | zero => exact h.throw _ s
  | succ n ih =>
    refine h.peek_bind ?_
    cases hop : op? (s.rest.headD .eof) with
    | none => exact h.pure _ s
    | some op =>
      -- the chain goes on behind operators only, so what is dropped is not the end
      have hnext : s.rest.headD .eof ≠ .eof := by
        intro hnext
        rw [hnext, heof] at hop
        cases hop
      refine h.bind (h.advance hnext) fun _ s₁ _ => ?_
      refine h.bind (h.countOperator s₁) fun _ s₂ _ => ?_
      exact h.bind (hpart s₂) fun rhs s₃ _ => ih _ s₃

theorem expression (hinner : ∀ s, P inner s) (s : ParserState) : P (expression inner) s := by
  have hproduct : ∀ s, P (chain multiplicative? inner) s := fun s =>
    h.bind (hinner s) fun first s₁ _ => h.chainFrom hinner rfl _ first s₁
  exact h.bind (hproduct s) fun first s₁ _ => h.chainFrom hproduct rfl _ first s₁

theorem operandWith (hinner : ∀ s, P inner s) (s : ParserState) : P (operandWith v inner) s := by
  refine h.peek_bind ?_
  cases hnext : s.rest.headD .eof with
  | minus =>
    exact h.bind (h.nested hinner (hnext ▸ Token.noConfusion)) fun _ s₁ _ => h.pure _ s₁
  | plus => exact h.nested hinner (hnext ▸ Token.noConfusion)
  | openParen =>
    refine h.bind (h.nested (h.expression hinner) (hnext ▸ Token.noConfusion)) fun e s₁ _ => ?_
    exact h.bind (h.close s₁) fun _ s₂ _ => h.pure _ s₂
  | int n => exact h.bind (h.advance (hnext ▸ Token.noConfusion)) fun _ s₁ _ => h.pure _ s₁
  | ident name =>
    dsimp only
    split
    · exact h.bind (h.advance (hnext ▸ Token.noConfusion)) fun _ s₁ _ => h.pure _ s₁
    · exact h.throw _ s
  | _ => exact h.throw _ s

theorem operand (levels : Nat) (s : ParserState) : P (operand v levels) s := by
  induction levels generalizing s with
  | zero =>
    -- below the last level stands a failure, which looks at no token
    exact h.operandWith (h.throw _) s
  | succ levels ih => exact h.operandWith ih s

/-- **Every call of a parser has what its steps have.** -/
theorem whole (s : ParserState) : P (whole v) s := by
  refine h.peek_bind ?_
  split
  · exact h.throw _ s
  · refine h.bind (h.expression (h.operand maxNesting) s) fun e s₁ _ => h.peek_bind ?_
    split
    · exact h.pure _ s₁
    · exact h.throw _ s₁

end Stepwise
end OperandCodec
