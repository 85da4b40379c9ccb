import Mathlib.Tactic.Common
import OperandCodec.Expr.Derivation
import OperandCodec.Expr.Parser
/-!
# Runs of the parser

What each step of the parser does to the state it is run from. A step that
succeeds is described by the value it gives and the state it leaves; a
sequence of steps succeeds where every step does (`runFrom_bind_eq_ok_iff`).
-/

namespace OperandCodec

/-- The state behind an operator. -/
def ParserState.behindOperator (s : ParserState) : ParserState :=
  ⟨s.rest.tail, s.depth, s.operators + 1⟩

/-- The state behind a sign or an opening parenthesis. -/
def ParserState.inside (s : ParserState) : ParserState :=
  ⟨s.rest.tail, s.depth + 1, s.operators⟩

namespace Parser

/-- The outcome of a step from a state, and the state it leaves. -/
def runFrom {α : Type} (x : ParserM α) (s : ParserState) : Except ParseError α × ParserState :=
  x.run.run s

variable {α β : Type} {s s' : ParserState}

@[simp] theorem runFrom_advance : runFrom advance s = (.ok (), { s with rest := s.rest.tail }) :=
  rfl

/-- A step behind another runs from the state that the first one leaves, if it succeeds. -/
theorem runFrom_bind (x : ParserM α) (f : α → ParserM β) :
    runFrom (x >>= f) s = match runFrom x s with
      | (.ok a, s') => runFrom (f a) s'
      | (.error e, s') => (.error e, s') := by
  unfold runFrom
  rw [ExceptT.run_bind, StateT.run_bind]
  rcases x.run.run s with ⟨_ | _, _⟩ <;> rfl

/-- Behind a step that succeeds, the run goes on. -/
theorem runFrom_bind_of_ok {x : ParserM α} {a : α} (h : runFrom x s = (.ok a, s'))
    (f : α → ParserM β) : runFrom (x >>= f) s = runFrom (f a) s' := by
  rw [runFrom_bind, h]

/-- Behind one step, two runs are the same where they are from every state that it can leave. -/
theorem runFrom_bind_congr {x : ParserM α} {f g : α → ParserM β}
    (h : ∀ a s', runFrom x s = (.ok a, s') → runFrom (f a) s' = runFrom (g a) s') :
    runFrom (x >>= f) s = runFrom (x >>= g) s := by
  rw [runFrom_bind, runFrom_bind]
  rcases hrun : runFrom x s with ⟨e | a, t⟩
  · rfl
  · exact h a t hrun

/-- **A sequence of two steps succeeds where both do.** -/
theorem runFrom_bind_eq_ok_iff {x : ParserM α} {f : α → ParserM β} {b : β} {s'' : ParserState} :
    runFrom (x >>= f) s = (.ok b, s'') ↔
      ∃ a s', runFrom x s = (.ok a, s') ∧ runFrom (f a) s' = (.ok b, s'') := by
  rw [runFrom_bind]
  rcases hx : runFrom x s with ⟨_ | a, s'⟩
  · simp
  · constructor
    · exact fun h => ⟨a, s', rfl, h⟩
    · rintro ⟨a', t, h, h'⟩
      cases h
      exact h'

/-- What follows a look at the next token depends on that token. -/
@[simp] theorem runFrom_peek_bind (f : Token → ParserM β) :
    runFrom (peek >>= f) s = runFrom (f (s.rest.headD .eof)) s := rfl

@[simp] theorem runFrom_advance_bind (f : Unit → ParserM β) :
    runFrom (advance >>= f) s = runFrom (f ()) { s with rest := s.rest.tail } := rfl

/-- A level is opened where the limit allows one more. -/
theorem runFrom_enter : runFrom enter s =
    (if s.depth < maxNesting then .ok () else .error .nestedTooDeep,
      { s with depth := s.depth + 1 }) := by
  show runFrom (if maxNesting < s.depth + 1 then throw .nestedTooDeep else pure PUnit.unit)
    { s with depth := s.depth + 1 } = _
  by_cases h : s.depth < maxNesting
  · rw [if_neg (by omega), if_pos h]
    rfl
  · rw [if_pos (by omega), if_neg h]
    rfl

/-- An operator is counted where the limit allows one more. -/
theorem runFrom_countOperator : runFrom countOperator s =
    (if s.operators < maxOperators then .ok () else .error .tooManyOperators,
      { s with operators := s.operators + 1 }) := by
  show runFrom (if maxOperators < s.operators + 1 then throw .tooManyOperators
    else pure PUnit.unit) { s with operators := s.operators + 1 } = _
  by_cases h : s.operators < maxOperators
  · rw [if_neg (by omega), if_pos h]
    rfl
  · rw [if_pos (by omega), if_neg h]
    rfl

/-- Behind an operator the run goes on where the limit allows one more. -/
theorem runFrom_operator_bind (f : Unit → ParserM β) :
    runFrom (advance >>= fun _ => countOperator >>= f) s =
      if s.operators < maxOperators then runFrom (f ()) s.behindOperator
      else (.error .tooManyOperators, s.behindOperator) := by
  rw [runFrom_advance_bind, runFrom_bind, runFrom_countOperator]
  dsimp only
  by_cases h : s.operators < maxOperators
  · rw [if_pos h, if_pos h]
    rfl
  · rw [if_neg h, if_neg h]
    rfl

/-- What stands behind a sign or a parenthesis is run one level deeper, if the limit allows one more,
and where it succeeds its level is closed. -/
theorem runFrom_nested (inner : ParserM Expr) : runFrom (nested inner) s =
    if s.depth < maxNesting then
      match runFrom inner s.inside with
      | (.ok e, t) => (.ok e, { t with depth := t.depth - 1 })
      | (.error e, t) => (.error e, t)
    else (.error .nestedTooDeep, s.inside) := by
  rw [nested, runFrom_advance_bind, runFrom_bind, runFrom_enter]
  dsimp only
  by_cases h : s.depth < maxNesting
  · rw [if_pos h, if_pos h]
    show runFrom (inner >>= _) s.inside = _
    rw [runFrom_bind]
    rcases runFrom inner s.inside with ⟨_ | _, t⟩ <;> rfl
  · rw [if_neg h, if_neg h]
    rfl

/-- **What stands behind a sign or a parenthesis is read** where the limit allows one more level,
and then its level is closed. -/
theorem runFrom_nested_eq_ok_iff {inner : ParserM Expr} {e : Expr} :
    runFrom (nested inner) s = (.ok e, s') ↔ s.depth < maxNesting ∧
      ∃ t, runFrom inner s.inside = (.ok e, t) ∧ s' = { t with depth := t.depth - 1 } := by
  rw [runFrom_nested]
  by_cases h : s.depth < maxNesting
  · rw [if_pos h, and_iff_right h]
    rcases runFrom inner s.inside with ⟨_ | e', t⟩
    · simp
    · simp [eq_comm]
  · rw [if_neg h]
    simp [h]

end Parser
end OperandCodec
