import OperandCodec.Proofs.Parser.Grammar
import OperandCodec.Proofs.Parser.Written
/-!
# Trees that are written too deep

What is written for a tree that is nested deeper than the limit is refused
for its depth, as long as the operators of the tree are within theirs
(`tooDeep_of_written`). The parser comes to a token that lies too deep
through phrases that it reads: of two operands the left one either lies too
deep itself, or it is read and the right one is next.
-/

namespace OperandCodec

open OperandCodec.Parser OperandCodec.Span

/-- From a state, a step fails for the depth. -/
def TooDeep {α : Type} (x : ParserM α) (s : ParserState) : Prop :=
  (runFrom x s).1 = .error .nestedTooDeep

variable {α β : Type} {s t : ParserState} {v : Variable}

/-! ## Steps -/

theorem TooDeep.bind {x : ParserM α} (h : TooDeep x s) (f : α → ParserM β) :
    TooDeep (x >>= f) s := by
  unfold TooDeep at h ⊢
  rw [runFrom_bind]
  rcases hx : runFrom x s with ⟨_ | a, s'⟩
  · rw [hx] at h
    exact congrArg Except.error (Except.error.inj h)
  · rw [hx] at h
    cases h

/-- What stands behind a sign or a parenthesis is refused where no level is left, and where it lies
too deep inside. -/
theorem tooDeep_nested {inner : ParserM Expr}
    (h : s.depth < maxNesting → TooDeep inner s.inside) : TooDeep (nested inner) s := by
  unfold TooDeep
  rw [nested, runFrom_advance_bind, runFrom_bind, runFrom_enter]
  dsimp only
  by_cases hlt : s.depth < maxNesting
  · rw [if_pos hlt]
    exact (h hlt).bind _
  · rw [if_neg hlt]

/-! ## Chains -/

section Chains

variable {part inner : ParserM Expr} {op? : Token → Option BinaryOp}

/-- A chain is refused where its first part is. -/
theorem TooDeep.chain (h : TooDeep part s) : TooDeep (chain op? part) s :=
  h.bind _

theorem TooDeep.expression (h : TooDeep inner s) : TooDeep (expression inner) s :=
  h.chain.chain

/-- A chain is refused where its first part is read up to an operator and the second part is
refused. -/
theorem tooDeep_chain {A : Span → Prop} {stops : Token → Prop} {a : Span} {op : BinaryOp}
    (hpart : ReadsAt s.depth part A stops) (ha : A a) (hcons : Consumes s a t)
    (hhead : t.rest.head? = some op.token) (hop : op? op.token = some op) (hstop : stops op.token)
    (hlt : t.operators < maxOperators) (hright : TooDeep part t.behindOperator) :
    TooDeep (chain op? part) s := by
  have hnext := headD_of_head? hhead
  have hfirst := (hpart s _ _ rfl).2 ⟨a, ha, rfl, hcons, hnext ▸ hstop⟩
  unfold TooDeep
  rw [Parser.chain, runFrom_bind_of_ok hfirst, chainFrom, runFrom_peek_bind, hnext, hop,
    runFrom_operator_bind, if_pos hlt]
  exact hright.bind _

end Chains

/-! ## Operands -/

section Operands

variable {inner : ParserM Expr} {levels : Nat} {rest : List Token}

/-- Where a level is left to open, one is left to recurse on. -/
theorem operand_eq_operandWith (v : Variable) {depth : Nat} (h : maxNesting ≤ depth + levels) :
    ∃ inner, operand v levels = operandWith v inner ∧
      (depth < maxNesting → ∃ n, maxNesting ≤ depth + 1 + n ∧ inner = operand v n) := by
  cases levels with
  | zero => exact ⟨_, rfl, fun hlt => absurd h (by omega)⟩
  | succ n => exact ⟨_, rfl, fun _ => ⟨n, by omega, rfl⟩⟩

theorem tooDeep_minus (hhead : s.rest.head? = some .minus)
    (h : s.depth < maxNesting → TooDeep inner s.inside) : TooDeep (operandWith v inner) s := by
  unfold TooDeep
  rw [operandWith, runFrom_peek_bind, headD_of_head? hhead]
  exact (tooDeep_nested h).bind _

theorem tooDeep_openParen (hhead : s.rest.head? = some .openParen)
    (h : s.depth < maxNesting → TooDeep (expression inner) s.inside) :
    TooDeep (operandWith v inner) s := by
  unfold TooDeep
  rw [operandWith, runFrom_peek_bind, headD_of_head? hhead]
  exact (tooDeep_nested h).bind _

/-- A written operand is passed over where the limits leave room for its tree. -/
theorem consumes_written {e : Expr} (hrest : s.rest = e.written.tokens v ++ rest)
    (hdepth : s.depth + e.nesting ≤ maxNesting) (hops : s.operators + e.operators ≤ maxOperators) :
    Consumes s (e.written.span v) ⟨rest, s.depth, s.operators + e.operators⟩ := by
  refine ⟨hrest, rfl, congrArg _ e.operators_written.symm, ?_, ?_⟩
  · simp only [Derivation.span, Expr.nesting_written]
    omega
  · simp only [Derivation.span, Expr.operators_written]
    omega

/-- Two operands with an operator between them are refused where one of them is too deep. -/
theorem tooDeep_operands {l r : Expr} {op : BinaryOp} {n : Nat}
    (hrest : s.rest = l.written.tokens v ++ op.token :: (r.written.tokens v ++ rest))
    (hlevels : maxNesting ≤ s.depth + n)
    (hops : s.operators + (1 + l.operators + r.operators) ≤ maxOperators)
    (hleft : maxNesting < s.depth + l.nesting → TooDeep (operand v n) s)
    (hright : ∀ t : ParserState, t.rest = r.written.tokens v ++ rest → t.depth = s.depth →
      t.operators = s.operators + l.operators + 1 → maxNesting < s.depth + r.nesting →
        TooDeep (operand v n) t)
    (hdeep : maxNesting < s.depth + max l.nesting r.nesting) :
    TooDeep (expression (operand v n)) s := by
  by_cases hl : maxNesting < s.depth + l.nesting
  · exact (hleft hl).expression
  · -- the left operand is read, and the operator behind it stands in front
    let t : ParserState := ⟨op.token :: (r.written.tokens v ++ rest), s.depth,
      s.operators + l.operators⟩
    have hcons : Consumes s (l.written.span v) t := consumes_written hrest (by omega) (by omega)
    have hread : ReadsAt s.depth (operand v n) (OfPhrase v .operand) fun _ => True :=
      readsAt_operand hlevels
    have hnext := hright t.behindOperator rfl rfl rfl (by omega)
    have hlt : t.operators < maxOperators := by
      simp only [t]
      omega
    -- the operator goes on with the product if it can, and with the sum otherwise
    by_cases hop : op.isAdditive
    · have hproduct :=
        hread.chain (fun t op h => (multiplicative?_eq_some_iff.1 h).1) fun _ _ => trivial
      refine tooDeep_chain hproduct (.single ⟨l.written, rfl⟩) hcons rfl
        (additive?_eq_some_iff.2 ⟨rfl, hop⟩) ⟨?_, trivial⟩ hlt hnext.chain
      cases op <;> first | rfl | cases hop
    · refine TooDeep.chain (tooDeep_chain hread ⟨l.written, rfl⟩ hcons rfl
        (multiplicative?_eq_some_iff.2 ⟨rfl, ?_⟩) trivial hlt hnext)
      simpa using hop

/-- **An operand that is written too deep is refused for its depth**, whatever stands behind it. The
induction is on the tree; a sign or a parenthesis opens a level, and the limit on operators is not
in the way. -/
theorem tooDeep_of_written (e : Expr) (hrest : s.rest = e.written.tokens v ++ rest)
    (hlevels : maxNesting ≤ s.depth + levels) (hdepth : s.depth ≤ maxNesting)
    (hdeep : maxNesting < s.depth + e.nesting) (hops : s.operators + e.operators ≤ maxOperators) :
    TooDeep (operand v levels) s := by
  induction e generalizing s levels rest with
  | literal n =>
    obtain ⟨inner, hoperand, -⟩ := operand_eq_operandWith v hlevels
    rw [hoperand]
    rw [Expr.tokens_written_literal] at hrest
    rw [Expr.nesting] at hdeep
    split at hdeep
    · -- the sign of the literal is the level too many
      refine tooDeep_minus ?_ fun hlt => absurd hdeep (by omega)
      rw [hrest, if_pos ‹_›]
      rfl
    · omega
  | var =>
    rw [Expr.nesting] at hdeep
    omega
  | negate e ih =>
    obtain ⟨inner, hoperand, hinner⟩ := operand_eq_operandWith v hlevels
    rw [Expr.tokens_written_negate] at hrest
    rw [Expr.nesting] at hdeep
    rw [hoperand]
    refine tooDeep_openParen (by rw [hrest]; rfl) fun hlt => TooDeep.expression ?_
    obtain ⟨n, hn, rfl⟩ := hinner hlt
    obtain ⟨inner', hoperand', hinner'⟩ := operand_eq_operandWith v hn
    rw [hoperand']
    refine tooDeep_minus (by rw [ParserState.inside, hrest]; rfl) fun hlt' => ?_
    obtain ⟨m, hm, rfl⟩ := hinner' hlt'
    have hinside : s.inside.inside.rest = e.written.tokens v ++ (.closeParen :: rest) := by
      simp [ParserState.inside, hrest]
    refine ih hinside hm hlt' ?_ hops
    simp only [ParserState.inside]
    omega
  | binary op l r ihl ihr =>
    obtain ⟨inner, hoperand, hinner⟩ := operand_eq_operandWith v hlevels
    rw [Expr.tokens_written_binary] at hrest
    rw [Expr.nesting] at hdeep
    rw [Expr.operators] at hops
    rw [hoperand]
    refine tooDeep_openParen (by rw [hrest]; rfl) fun hlt => ?_
    obtain ⟨n, hn, rfl⟩ := hinner hlt
    have hinside : s.inside.rest =
        l.written.tokens v ++ op.token :: (r.written.tokens v ++ (.closeParen :: rest)) := by
      simp [ParserState.inside, hrest]
    refine tooDeep_operands hinside hn hops (fun hl => ?_) (fun t htokens ht htops hr => ?_) ?_
    · exact ihl hinside hn hlt hl (by simp only [ParserState.inside]; omega)
    · refine ihr htokens (ht ▸ hn) (ht ▸ hlt) (ht ▸ hr) ?_
      rw [htops]
      simp only [ParserState.inside]
      omega
    · simp only [ParserState.inside]
      omega

end Operands

/-- **A tree that is written deeper than the limit is refused for it.** -/
theorem ofTokens_eq_nestedTooDeep {e : Expr} (rest : List Token) (hdeep : maxNesting < e.nesting)
    (hops : e.operators ≤ maxOperators) :
    Expr.ofTokens (e.written.tokens v ++ rest) v = .error .nestedTooDeep := by
  obtain ⟨t, ts, htokens⟩ := List.exists_cons_of_ne_nil (e.written.tokens_ne_nil v)
  have ht : t ≠ .eof := by
    rintro rfl
    exact e.written.eof_notMem_tokens v (htokens ▸ List.mem_cons_self)
  have hoperand : TooDeep (operand v maxNesting) (.ofTokens (e.written.tokens v ++ rest)) :=
    tooDeep_of_written e rfl (Nat.le_add_left _ _) (Nat.zero_le _) (by simpa [ParserState.ofTokens])
      (by simpa [ParserState.ofTokens])
  show TooDeep (whole v) _
  unfold TooDeep
  rw [whole, runFrom_peek_bind, if_neg]
  · exact hoperand.expression.bind _
  · rw [ParserState.ofTokens, htokens]
    exact ht

end OperandCodec
