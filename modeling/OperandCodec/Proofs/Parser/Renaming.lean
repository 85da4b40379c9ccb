import OperandCodec.Proofs.Parser.Grammar
/-!
# Renaming the variable

The grammar mentions the variable by its name and nowhere else, so the same
derivation serves a phrase over one variable and the phrase over another with
the names exchanged (`Derivation.map_renamed_tokens`). Hence both have one
tree (`ofTokens_renamed`).
-/

namespace OperandCodec

variable {v v' : Variable}

/-- A token in which the name of a variable is replaced by that of another. -/
def Token.renamed (v v' : Variable) : Token → Token
  | ident name => ident (if name = v.name then v'.name else name)
  | t => t

/-- The tokens of a state that are left, renamed. -/
def ParserState.renamed (v v' : Variable) (s : ParserState) : ParserState :=
  { s with rest := s.rest.map (Token.renamed v v') }

theorem BinaryOp.renamed_token (op : BinaryOp) : op.token.renamed v v' = op.token := by
  cases op <;> rfl

/-- **A derivation builds the renamed phrase over the other variable.** -/
theorem Derivation.map_renamed_tokens {p : Phrase} (d : Derivation p) :
    (d.tokens v).map (Token.renamed v v') = d.tokens v' := by
  induction d with
  | literal n => rfl
  | var => simp only [tokens, List.map_cons, List.map_nil, Token.renamed, if_true]
  | plus d ih | minus d ih => rw [tokens, List.map_cons, ih]; rfl
  | parens d ih =>
    rw [tokens, List.map_cons, List.map_append, ih]
    rfl
  | single d ih | term d ih => exact ih
  | times op _ l r ihl ihr | add op _ l r ihl ihr =>
    rw [tokens, List.map_append, List.map_cons, ihl, ihr, op.renamed_token, tokens]

/-- What passes over a phrase passes over the renamed one. -/
theorem Consumes.renamed {p : Phrase} {d : Derivation p} {s s' : ParserState}
    (h : Consumes s (d.span v) s') : Consumes (s.renamed v v') (d.span v') (s'.renamed v v') := by
  refine ⟨?_, h.depth, h.operators, h.nesting_le, h.operators_le⟩
  have hrest : s.rest = d.tokens v ++ s'.rest := h.rest
  show s.rest.map (Token.renamed v v') = d.tokens v' ++ s'.rest.map (Token.renamed v v')
  rw [hrest, List.map_append, d.map_renamed_tokens]

/-- **Renamed tokens have the same tree over the other variable.** -/
theorem ofTokens_renamed {tokens : List Token} {e : Expr} (h : Expr.ofTokens tokens v = .ok e) :
    Expr.ofTokens (tokens.map (Token.renamed v v')) v' = .ok e := by
  obtain ⟨s', d, htree, hcons, hend⟩ := ofTokens_eq_ok_iff_consumes.1 h
  refine ofTokens_eq_ok_iff_consumes.2 ⟨s'.renamed v v', d, htree, hcons.renamed, ?_⟩
  show (s'.rest.map (Token.renamed v v')).headD .eof = .eof
  cases hrest : s'.rest with
  | nil => rfl
  | cons t ts =>
    rw [hrest] at hend
    obtain rfl : t = .eof := hend
    rfl

end OperandCodec
