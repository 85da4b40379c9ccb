import OperandCodec.Proofs.Parser.Steps
/-!
# Behind the end

A parser looks at the tokens one by one and drops none that it has not looked
at, and it never drops the end. So cutting off the tokens from the first end
on makes no difference to what a call of the parser gives (`parse_cut`), not
even to its error.
-/

namespace OperandCodec

open OperandCodec.Parser

/-- A state without the tokens from the first end on. -/
def ParserState.cut (s : ParserState) : ParserState :=
  { s with rest := s.rest.takeWhile (· ≠ .eof) }

/-- From a state, and from the state cut, a step has the same outcome and leaves the same state but
for the cut. -/
def CutsAt {α : Type} (x : ParserM α) (s : ParserState) : Prop :=
  runFrom x s.cut = ((runFrom x s).1, (runFrom x s).2.cut)

variable {α β : Type} {s : ParserState}

/-- The token in front is the same. -/
theorem headD_cut (s : ParserState) : s.cut.rest.headD .eof = s.rest.headD .eof := by
  obtain ⟨rest, depth, operators⟩ := s
  cases rest with
  | nil => rfl
  | cons t ts =>
    by_cases ht : t = .eof
    · simp [ParserState.cut, ht]
    · simp [ParserState.cut, ht]

/-! ## Steps -/

theorem CutsAt.bind {x : ParserM α} {f : α → ParserM β} (hx : CutsAt x s)
    (hf : ∀ a s', runFrom x s = (.ok a, s') → CutsAt (f a) s') : CutsAt (x >>= f) s := by
  unfold CutsAt at hx ⊢
  rw [runFrom_bind, runFrom_bind, hx]
  rcases h : runFrom x s with ⟨_ | a, s'⟩
  · rfl
  · exact hf a s' h

/-- A token that is not the end may be dropped. -/
theorem cutsAt_advance (h : s.rest.headD .eof ≠ .eof) : CutsAt advance s := by
  obtain ⟨rest, depth, operators⟩ := s
  cases rest with
  | nil => exact absurd rfl h
  | cons t ts =>
    change t ≠ .eof at h
    simp [CutsAt, ParserState.cut, h]

theorem cutsAt_enter (s : ParserState) : CutsAt enter s := by
  rw [CutsAt, runFrom_enter, runFrom_enter]
  rfl

theorem cutsAt_nested {inner : ParserM Expr} (hinner : ∀ s, CutsAt inner s)
    (h : s.rest.headD .eof ≠ .eof) : CutsAt (nested inner) s := by
  refine .bind (cutsAt_advance h) fun _ s₁ _ => .bind (cutsAt_enter s₁) fun _ s₂ _ => ?_
  exact .bind (hinner s₂) fun e s₃ _ => .bind rfl fun _ s₄ _ => rfl

/-- **No step looks behind the end.** -/
theorem cutsAt_stepwise : Stepwise @CutsAt where
  pure _ _ := rfl
  throw _ _ := rfl
  bind := CutsAt.bind
  peek_bind := by
    intro β f s hf
    unfold CutsAt at hf ⊢
    rw [runFrom_peek_bind, runFrom_peek_bind, headD_cut]
    exact hf
  advance := cutsAt_advance
  countOperator s := by
    rw [CutsAt, runFrom_countOperator, runFrom_countOperator]
    rfl
  nested := cutsAt_nested

/-- **Tokens behind the end make no difference.** -/
theorem parse_cut (s : ParserState) (v : Variable) :
    s.cut.parse v = ((s.parse v).1, (s.parse v).2.cut) :=
  cutsAt_stepwise.whole s

end OperandCodec
