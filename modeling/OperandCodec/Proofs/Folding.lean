import OperandCodec.Proofs.Evaluation
import OperandCodec.Proofs.Parser.Language
import OperandCodec.Proofs.Parser.Written
/-!
# Signs that are taken into literals

The parser takes a minus sign over a literal into the literal. A sign is a
token of its own, so no literal of a source is negative, and whatever signs
stand before it, it never becomes the least value: its negation is always
exact (`HasNegatableLiterals`). With that, a sign that is taken into a
literal evaluates as the sign that is kept does, and so does the whole tree
(`eval_tree_eq_plain`).
-/

namespace OperandCodec

open OperandCodec.Parser

/-! ## Literals -/

namespace Expr

variable {v : Variable} {e e' : Expr} {x n : Value}

/-- The literals of a tree are at most `2^63 - 1` away from zero, so each has an exact negation. -/
def HasNegatableLiterals (e : Expr) : Prop :=
  ∀ n, literal n ∈ e.postorder →
    (-(2 ^ 63 - 1) ≤ n.toInt ∧ n.toInt ≤ 2 ^ 63 - 1) ∧ (-n).toInt = -n.toInt

theorem negatable_of_ne_minValue (hn : n ≠ Int64.minValue) :
    (-(2 ^ 63 - 1) ≤ n.toInt ∧ n.toInt ≤ 2 ^ 63 - 1) ∧ (-n).toInt = -n.toInt := by
  have hmin : n.toInt ≠ Int64.minValue.toInt := mt Int64.toInt_inj.1 hn
  have hlo := n.le_toInt
  have hhi := n.toInt_lt
  rw [Int64.toInt_minValue] at hmin
  exact ⟨by omega, toInt_neg_of_ne_minValue hn⟩

/-- Every node of a folded tree is folded. -/
theorem Folded.of_mem_postorder (he : e.Folded) {s : Expr} (hs : s ∈ e.postorder) : s.Folded := by
  induction e with
  | literal | var =>
    obtain rfl := List.mem_singleton.1 hs
    exact he
  | negate e ih =>
    rcases List.mem_append.1 hs with hs | hs
    · exact ih he.2 hs
    · obtain rfl := List.mem_singleton.1 hs
      exact he
  | binary op l r ihl ihr =>
    rcases List.mem_append.1 hs with hs | hs
    · exact (List.mem_append.1 hs).elim (ihl he.1) (ihr he.2)
    · obtain rfl := List.mem_singleton.1 hs
      exact he

theorem Folded.hasNegatableLiterals (he : e.Folded) : e.HasNegatableLiterals := fun _ hn =>
  negatable_of_ne_minValue (he.of_mem_postorder hn)

theorem Folded.negate_literal_notMem (he : e.Folded) (n : Value) :
    negate (literal n) ∉ e.postorder := fun hn => (he.of_mem_postorder hn).1 n rfl

/-! ## Values -/

theorem eval_negate_congr (h : e.eval x = e'.eval x) : (negate e).eval x = (negate e').eval x := by
  rw [eval, eval, h]

/-- **A sign that is taken into a literal evaluates as the sign that is kept does.** -/
theorem eval_minus (he : e.Folded) : e.minus.eval x = (negate e).eval x := by
  cases e with
  | literal n =>
    show Except.ok (-n) = checked (-n.toInt)
    exact (checked_eq_ok_iff.2 (toInt_neg_of_ne_minValue he)).symm
  | var | negate | binary => rfl

end Expr

namespace Derivation

variable {v : Variable} {p : Phrase} {d : Derivation p}

/-- The trees that are put together on the way to the tree of a phrase, that one included. -/
def trees {p : Phrase} : Derivation p → List Expr
  | literal n => [.literal n]
  | var => [.var]
  | plus d => d.trees
  | minus d => d.tree.minus :: d.trees
  | parens d => d.trees
  | single d => d.trees
  | times op _ l r => .binary op l.tree r.tree :: (l.trees ++ r.trees)
  | term d => d.trees
  | add op _ l r => .binary op l.tree r.tree :: (l.trees ++ r.trees)

/-- The literals of a part are literals of the whole. -/
theorem HasUnsignedLiterals.part {q : Phrase} {d' : Derivation q} (hd : d.HasUnsignedLiterals v)
    (h : d'.tokens v ⊆ d.tokens v) : d'.HasUnsignedLiterals v := fun n hn => hd n (h hn)

theorem tokens_subset_parens (v : Variable) (d : Derivation .sum) :
    d.tokens v ⊆ (parens d).tokens v :=
  List.Subset.trans (List.subset_append_left _ _) (List.subset_cons_self _ _)

/-- What stands behind a token is part of the whole. -/
theorem subset_behind {ts : List Token} (ls : List Token) (t : Token) : ts ⊆ ls ++ t :: ts :=
  List.subset_append_of_subset_right ls (List.subset_cons_self t ts)

/-- **Every tree on the way is folded**, as the tree of the phrase is. -/
theorem folded_of_mem_trees (hd : d.HasUnsignedLiterals v) {t : Expr} (ht : t ∈ d.trees) :
    t.Folded := by
  have hwhole : d.tree.Folded := Expr.folded_tree d hd
  induction d with
  | literal | var =>
    obtain rfl := List.mem_singleton.1 ht
    exact hwhole
  | plus d ih => exact ih (hd.part (List.subset_cons_self _ _)) ht hwhole
  | minus d ih =>
    have hinner : d.HasUnsignedLiterals v := hd.part (List.subset_cons_self _ _)
    rcases List.mem_cons.1 ht with rfl | ht
    · exact hwhole
    · exact ih hinner ht (Expr.folded_tree d hinner)
  | parens d ih => exact ih (hd.part (tokens_subset_parens v d)) ht hwhole
  | single d ih | term d ih => exact ih hd ht hwhole
  | times op _ l r ihl ihr | add op _ l r ihl ihr =>
    rcases List.mem_cons.1 ht with rfl | ht
    · exact hwhole
    · rcases List.mem_append.1 ht with ht | ht
      · exact ihl (hd.part (List.subset_append_left _ _)) ht hwhole.1
      · exact ihr (hd.part (subset_behind (l.tokens v) op.token)) ht hwhole.2

/-- **A phrase has the values and the faults that it has with every sign kept.** -/
theorem eval_tree_eq_plain (hd : d.HasUnsignedLiterals v) (x : Value) :
    d.tree.eval x = d.plain.eval x := by
  induction d with
  | literal | var => rfl
  | plus d ih => exact ih (hd.part (List.subset_cons_self _ _))
  | minus d ih =>
    have hinner : d.HasUnsignedLiterals v := hd.part (List.subset_cons_self _ _)
    calc d.tree.minus.eval x = (Expr.negate d.tree).eval x :=
          Expr.eval_minus (Expr.folded_tree d hinner)
      _ = (Expr.negate d.plain).eval x := Expr.eval_negate_congr (ih hinner)
  | parens d ih => exact ih (hd.part (tokens_subset_parens v d))
  | single d ih | term d ih => exact ih hd
  | times op _ l r ihl ihr | add op _ l r ihl ihr =>
    have hleft := ihl (hd.part (List.subset_append_left _ _))
    have hright := ihr (hd.part (subset_behind (l.tokens v) op.token))
    rw [tree, plain, Expr.eval, Expr.eval, hleft, hright]

end Derivation

/-! ## The rules of the parser -/

/-- The rule of the parser for a kind of phrase, at a depth. -/
def Parser.rule (v : Variable) (depth : Nat) : Phrase → ParserM Expr
  | .operand => operand v (maxNesting - depth)
  | .product => chain multiplicative? (operand v (maxNesting - depth))
  | .sum => expression (operand v (maxNesting - depth))

/-- What a rule reads is a phrase of its kind. -/
theorem Parser.derivation_of_rule {v : Variable} {p : Phrase} {s s' : ParserState} {t : Expr}
    (h : runFrom (rule v s.depth p) s = (.ok t, s')) :
    ∃ d : Derivation p, d.tree = t ∧ s.rest = d.tokens v ++ s'.rest := by
  have hoperand : ReadsAt s.depth (operand v (maxNesting - s.depth)) (Span.OfPhrase v .operand)
      fun _ => True := readsAt_operand (by omega)
  cases p with
  | operand =>
    obtain ⟨_, ⟨d, rfl⟩, htree, hcons, -⟩ := (hoperand s _ _ rfl).1 h
    exact ⟨d, htree, hcons.rest⟩
  | product =>
    have hproduct := hoperand.chain (fun t op h => (multiplicative?_eq_some_iff.1 h).1)
      fun _ _ => trivial
    rw [← Span.ofPhrase_product] at hproduct
    obtain ⟨_, ⟨d, rfl⟩, htree, hcons, -⟩ := (hproduct s _ _ rfl).1 h
    exact ⟨d, htree, hcons.rest⟩
  | sum =>
    obtain ⟨_, ⟨d, rfl⟩, htree, hcons, -⟩ := (hoperand.expression s _ _ rfl).1 h
    exact ⟨d, htree, hcons.rest⟩

namespace Expr

/-- **Taking signs into literals is safe.** A source that is parsed has a derivation with its tree.
The literals of the trees on the way to it can be negated, and so can those of whatever a rule of
the parser reads from any place in the source; no negation is left over a literal; and the tree has
the values and faults of the tree in which every minus sign is kept. -/
theorem folding_is_safe {source : String} {v : Variable} {e : Expr}
    (h : ofSource source v = .ok e) :
    ∃ d : Derivation .sum, Token.ofSource source = .ok (d.tokens v ++ [.eof]) ∧ d.tree = e ∧
      (∀ t ∈ d.trees, t.HasNegatableLiterals) ∧
      (∀ (p : Phrase) (s s' : ParserState) (t : Expr), s.rest <:+ d.tokens v ++ [.eof] →
        runFrom (rule v s.depth p) s = (.ok t, s') → t.HasNegatableLiterals) ∧
      (∀ n, negate (literal n) ∉ e.postorder) ∧
      ∀ x, e.eval x = d.plain.eval x := by
  obtain ⟨d, htokens, rfl, -, -, hd⟩ := derivation_of_ofSource h
  refine ⟨d, htokens, rfl, fun t ht => ?_, fun p s s' t hs hrun => ?_, ?_, ?_⟩
  · exact (Derivation.folded_of_mem_trees hd ht).hasNegatableLiterals
  · obtain ⟨part, rfl, hrest⟩ := derivation_of_rule hrun
    have hpart : part.HasUnsignedLiterals v := fun n hn =>
      nonneg_of_tokens htokens (hs.subset (hrest ▸ List.mem_append_left _ hn))
    exact (folded_tree part hpart).hasNegatableLiterals
  · exact (folded_tree d hd).negate_literal_notMem
  · exact Derivation.eval_tree_eq_plain hd

/-- The largest literal under two signs and a parenthesis, and a sign that stays. At the least value
of the variable the sign that stays is what overflows, with and without the other signs. -/
theorem folding_is_safe_of_signs :
    let e := binary .sub (literal 9223372036854775807) (negate var)
    ofSource "-(-9223372036854775807) - -+arg" .arg = .ok e ∧
      (∃ d : Derivation .sum, d.tree = e ∧ (∀ t ∈ d.trees, t.HasNegatableLiterals) ∧
        e.eval Int64.minValue = d.plain.eval Int64.minValue) ∧
      e.eval Int64.minValue = .error .overflow := by
  have h : ofSource "-(-9223372036854775807) - -+arg" .arg =
      .ok (binary .sub (literal 9223372036854775807) (negate var)) := by
    decide +kernel
  obtain ⟨d, -, htree, hliterals, -, -, hvalue⟩ := folding_is_safe h
  exact ⟨h, ⟨d, htree, hliterals, hvalue _⟩, rfl⟩

end Expr
end OperandCodec
