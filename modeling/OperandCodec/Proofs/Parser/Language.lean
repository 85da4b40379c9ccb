import OperandCodec.Proofs.Parser.Cut
import OperandCodec.Proofs.Parser.Grammar
import OperandCodec.Proofs.Scanning
/-!
# What has a tree

The token lists that have a tree are those of the grammar within the two
limits, and the tree is that of the derivation (`ofTokens_eq_ok_iff`). Only
the tokens before the first end count. A source has its end behind all other
tokens, so an accepted source is a phrase as a whole
(`derivation_of_ofSource`).
-/

namespace OperandCodec

/-- Tokens without an end, in front of an end or of nothing, are those before the first end. -/
theorem takeWhile_append_of_headD {ts rest : List Token} (hts : .eof ∉ ts)
    (hrest : rest.headD .eof = .eof) : (ts ++ rest).takeWhile (· ≠ .eof) = ts := by
  have hall : ∀ t ∈ ts, decide (t ≠ .eof) = true := fun t ht =>
    decide_eq_true (ne_of_mem_of_not_mem ht hts)
  rw [List.takeWhile_append_of_pos hall]
  cases rest with
  | nil => rw [List.takeWhile_nil, List.append_nil]
  | cons t rest =>
    obtain rfl : t = .eof := hrest
    simp

/-- Behind the tokens before the first end stands the end. -/
theorem headD_dropWhile (tokens : List Token) :
    (tokens.dropWhile (· ≠ .eof)).headD .eof = .eof := by
  have h := List.head?_dropWhile_not (· ≠ Token.eof) tokens
  cases hdrop : tokens.dropWhile (· ≠ .eof) with
  | nil => rfl
  | cons t ts =>
    rw [hdrop] at h
    simpa using h

/-- **The parser accepts its grammar within its limits**, with the tree of the derivation, and the
tokens behind the first end have no effect. -/
theorem ofTokens_eq_ok_iff (tokens : List Token) (v : Variable) :
    (∀ e, Expr.ofTokens tokens v = .ok e ↔ ∃ d : Derivation .sum,
      d.tokens v = tokens.takeWhile (· ≠ .eof) ∧ d.nesting ≤ maxNesting ∧
        d.operators ≤ maxOperators ∧ d.tree = e) ∧
      Expr.ofTokens tokens v = Expr.ofTokens (tokens.takeWhile (· ≠ .eof)) v := by
  refine ⟨fun e => ⟨fun h => ?_, ?_⟩, ?_⟩
  · obtain ⟨d, htree, hcons, hend⟩ := parse_eq_ok_iff.1 (Prod.ext h rfl :
      (ParserState.ofTokens tokens).parse v = (.ok e, ((ParserState.ofTokens tokens).parse v).2))
    refine ⟨d, ?_, hcons.nesting_le, hcons.operators_le, htree⟩
    have hrest : tokens = d.tokens v ++ _ := hcons.rest
    rw [hrest, takeWhile_append_of_headD (d.eof_notMem_tokens v) hend]
  · rintro ⟨d, htokens, hnesting, hoperators, htree⟩
    have hcons : Consumes (.ofTokens tokens) (d.span v)
        ⟨tokens.dropWhile (· ≠ .eof), 0, d.operators⟩ := by
      refine ⟨?_, rfl, (Nat.zero_add _).symm, hnesting, hoperators⟩
      show tokens = d.tokens v ++ _
      rw [htokens, List.takeWhile_append_dropWhile]
    exact congrArg Prod.fst (parse_eq_ok_iff.2 ⟨d, htree, hcons, headD_dropWhile tokens⟩)
  · exact (congrArg Prod.fst (parse_cut (.ofTokens tokens) v)).symm

/-- No literal of a phrase is written as a negative one. -/
def Derivation.HasUnsignedLiterals (v : Variable) {p : Phrase} (d : Derivation p) : Prop :=
  ∀ n, .int n ∈ d.tokens v → 0 ≤ n.toInt

/-- **A source that is accepted is a phrase**, within the limits, and its tree is that of the
phrase. -/
theorem Expr.derivation_of_ofSource {source : String} {v : Variable} {e : Expr}
    (h : ofSource source v = .ok e) :
    ∃ d : Derivation .sum, Token.ofSource source = .ok (d.tokens v ++ [.eof]) ∧ d.tree = e ∧
      d.nesting ≤ maxNesting ∧ d.operators ≤ maxOperators ∧ d.HasUnsignedLiterals v := by
  unfold ofSource at h
  split at h
  · cases h
  · rename_i tokens htokens
    obtain ⟨s', d, htree, hcons, hend⟩ := ofTokens_eq_ok_iff_consumes.1 h
    obtain ⟨ts, rfl, hts⟩ := Scanner.tokens_eq_append_eof htokens
    -- both the phrase and the tokens before the end are what stands before the first end
    have hrest : ts ++ [.eof] = d.tokens v ++ s'.rest := hcons.rest
    have hphrase := congrArg (List.takeWhile (· ≠ .eof)) hrest
    rw [takeWhile_append_of_headD hts rfl,
      takeWhile_append_of_headD (d.eof_notMem_tokens v) hend] at hphrase
    subst hphrase
    refine ⟨d, htokens, htree, hcons.nesting_le, hcons.operators_le, fun n hn => ?_⟩
    exact nonneg_of_tokens htokens (List.mem_append_left _ hn)

end OperandCodec
