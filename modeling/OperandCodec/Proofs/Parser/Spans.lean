import OperandCodec.Proofs.Parser.Runs
/-!
# Spans

What a parser needs to know of a phrase: its tokens, its tree, and how much
of the two limits it uses up (`Span`). A parser that passes over a span moves
from one state to another (`Consumes`), and here the limits become conditions
on the state before: only as many levels and operators as are left. Sums and
products are both chains, of parts that are joined by operators and grouped
to the left (`Chained`).
-/

namespace OperandCodec

/-- A phrase as a parser passes over it. -/
structure Span where
  tokens : List Token
  tree : Expr
  nesting : Nat
  operators : Nat

/-- The span of a derivation. -/
def Derivation.span (v : Variable) {p : Phrase} (d : Derivation p) : Span :=
  ⟨d.tokens v, d.tree, d.nesting, d.operators⟩

namespace Span

/-- The spans of the phrases of a kind. -/
def OfPhrase (v : Variable) (p : Phrase) (a : Span) : Prop :=
  ∃ d : Derivation p, d.span v = a

/-- Two spans joined by an operator. -/
def join (l : Span) (op : BinaryOp) (r : Span) : Span :=
  ⟨l.tokens ++ op.token :: r.tokens, .binary op l.tree r.tree, max l.nesting r.nesting,
    l.operators + r.operators + 1⟩

/-- A span behind a sign or an opening parenthesis, one level deeper. -/
def behind (t : Token) (e : Expr) (a : Span) : Span :=
  ⟨t :: a.tokens, e, a.nesting + 1, a.operators⟩

/-- A span with a closing token. -/
def closedBy (a : Span) (t : Token) : Span :=
  { a with tokens := a.tokens ++ [t] }

/-- Chains of spans, joined by operators of one kind and grouped to the left. -/
inductive Chained (op? : Token → Option BinaryOp) (A : Span → Prop) : Span → Prop where
  | single {a : Span} : A a → Chained op? A a
  | join {l r : Span} {op : BinaryOp} : Chained op? A l → op? op.token = some op → A r →
      Chained op? A (l.join op r)

end Span

open OperandCodec.Parser OperandCodec.Span

/-! ## Sums and products as chains -/

theorem Parser.additive?_eq_some_iff {t : Token} {op : BinaryOp} :
    additive? t = some op ↔ t = op.token ∧ op.isAdditive := by
  constructor
  · intro h
    cases t <;> cases h <;> exact ⟨rfl, rfl⟩
  · rintro ⟨rfl, hop⟩
    cases op <;> first | rfl | cases hop

theorem Parser.multiplicative?_eq_some_iff {t : Token} {op : BinaryOp} :
    multiplicative? t = some op ↔ t = op.token ∧ !op.isAdditive := by
  constructor
  · intro h
    cases t <;> cases h <;> exact ⟨rfl, rfl⟩
  · rintro ⟨rfl, hop⟩
    cases op <;> first | rfl | cases hop

namespace Span

variable {v : Variable}

/-- **A product is a chain of operands.** -/
theorem ofPhrase_product :
    OfPhrase v .product = Chained multiplicative? (OfPhrase v .operand) := by
  refine funext fun a => propext ⟨?_, ?_⟩
  · rintro ⟨d, rfl⟩
    generalize hp : Phrase.product = p at d
    induction d with
    | single d => exact .single ⟨d, rfl⟩
    | times op hop l r ihl =>
      exact .join (ihl rfl) (multiplicative?_eq_some_iff.2 ⟨rfl, hop⟩) ⟨r, rfl⟩
    | _ => cases hp
  · intro h
    induction h with
    | single ha =>
      obtain ⟨d, rfl⟩ := ha
      exact ⟨.single d, rfl⟩
    | join _ hop hr ihl =>
      obtain ⟨l, rfl⟩ := ihl
      obtain ⟨r, rfl⟩ := hr
      exact ⟨.times _ (multiplicative?_eq_some_iff.1 hop).2 l r, rfl⟩

/-- **A sum is a chain of products.** -/
theorem ofPhrase_sum : OfPhrase v .sum = Chained additive? (OfPhrase v .product) := by
  refine funext fun a => propext ⟨?_, ?_⟩
  · rintro ⟨d, rfl⟩
    generalize hp : Phrase.sum = p at d
    induction d with
    | term d => exact .single ⟨d, rfl⟩
    | add op hop l r ihl =>
      exact .join (ihl rfl) (additive?_eq_some_iff.2 ⟨rfl, hop⟩) ⟨r, rfl⟩
    | _ => cases hp
  · intro h
    induction h with
    | single ha =>
      obtain ⟨d, rfl⟩ := ha
      exact ⟨.term d, rfl⟩
    | join _ hop hr ihl =>
      obtain ⟨l, rfl⟩ := ihl
      obtain ⟨r, rfl⟩ := hr
      exact ⟨.add _ (additive?_eq_some_iff.1 hop).2 l r, rfl⟩

end Span

/-! ## Passing over a span -/

/-- The state behind a span: its tokens are gone, its operators are counted, the same levels are
open; and the span was within what the limits left. -/
structure Consumes (s : ParserState) (a : Span) (s' : ParserState) : Prop where
  rest : s.rest = a.tokens ++ s'.rest
  depth : s'.depth = s.depth
  operators : s'.operators = s.operators + a.operators
  nesting_le : a.nesting ≤ maxNesting - s.depth
  operators_le : a.operators ≤ maxOperators - s.operators

/-- **Passing over a single token** is dropping it. -/
theorem consumes_token_iff {s s' : ParserState} {t : Token} {e : Expr} :
    Consumes s ⟨[t], e, 0, 0⟩ s' ↔ s.rest.head? = some t ∧ s' = { s with rest := s.rest.tail } := by
  constructor
  · rintro ⟨hrest, hdepth, hops, -, -⟩
    obtain ⟨rest, depth, operators⟩ := s
    obtain ⟨rest', depth', operators'⟩ := s'
    dsimp only at hrest hdepth hops
    rw [hrest, hdepth, hops]
    exact ⟨rfl, rfl⟩
  · rintro ⟨hhead, rfl⟩
    obtain ⟨rest, hcons⟩ := List.head?_eq_some_iff.1 hhead
    exact ⟨by rw [hcons]; rfl, rfl, rfl, Nat.zero_le _, Nat.zero_le _⟩

/-- **Passing over a join** is passing over the left part, an operator that the limit allows, and
the right part. -/
theorem consumes_join_iff {s s' : ParserState} {l r : Span} {op : BinaryOp} :
    Consumes s (l.join op r) s' ↔ ∃ t, Consumes s l t ∧ t.rest.head? = some op.token ∧
      t.operators < maxOperators ∧ Consumes t.behindOperator r s' := by
  constructor
  · rintro ⟨hrest, hdepth, hops, hnest, hle⟩
    simp only [join] at hrest hops hnest hle
    -- in between the left part is counted, and the operator stands in front
    let t : ParserState := ⟨op.token :: (r.tokens ++ s'.rest), s.depth, s.operators + l.operators⟩
    have hleft : Consumes s l t := by
      refine ⟨?_, rfl, rfl, by omega, by omega⟩
      rw [hrest, List.append_assoc, List.cons_append]
    have hlt : t.operators < maxOperators := by
      simp only [t]
      omega
    have hright : Consumes t.behindOperator r s' := by
      refine ⟨rfl, hdepth, ?_, ?_, ?_⟩ <;> simp only [t, ParserState.behindOperator] <;> omega
    exact ⟨t, hleft, rfl, hlt, hright⟩
  · rintro ⟨t, hleft, hhead, hlt, hright⟩
    obtain ⟨hrest, hdepth, hops, hnest, hle⟩ := hleft
    obtain ⟨hrest', hdepth', hops', hnest', hle'⟩ := hright
    obtain ⟨rest, hcons⟩ := List.head?_eq_some_iff.1 hhead
    simp only [ParserState.behindOperator] at hrest' hdepth' hops' hnest' hle'
    refine ⟨?_, by omega, ?_, ?_, ?_⟩
    · rw [hcons, List.tail_cons] at hrest'
      rw [hrest, hcons, hrest', join, List.append_assoc, List.cons_append]
    all_goals
      simp only [join]
      omega

/-- **Passing over a span behind a sign** is opening a level and passing over the span. -/
theorem consumes_behind_iff {s s' : ParserState} {t : Token} {a : Span} {e : Expr} :
    Consumes s (a.behind t e) s' ↔ s.rest.head? = some t ∧ s.depth < maxNesting ∧
      s'.depth = s.depth ∧ Consumes s.inside a { s' with depth := s.depth + 1 } := by
  constructor
  · rintro ⟨hrest, hdepth, hops, hnest, hle⟩
    simp only [behind] at hrest hops hnest hle
    -- the span uses a level, so one was left
    have hlt : s.depth < maxNesting := by omega
    have hinside : Consumes s.inside a { s' with depth := s.depth + 1 } := by
      refine ⟨?_, rfl, hops, ?_, hle⟩
      · rw [ParserState.inside, hrest, List.cons_append, List.tail_cons]
      · simp only [ParserState.inside]
        omega
    exact ⟨by rw [hrest]; rfl, hlt, hdepth, hinside⟩
  · rintro ⟨hhead, hlt, hdepth, ⟨hrest, -, hops, hnest, hle⟩⟩
    obtain ⟨rest, hcons⟩ := List.head?_eq_some_iff.1 hhead
    simp only [ParserState.inside] at hrest hops hnest hle
    refine ⟨?_, hdepth, hops, ?_, hle⟩
    · rw [hcons, List.tail_cons] at hrest
      rw [hcons, hrest, behind, List.cons_append]
    · simp only [behind]
      omega

/-- **Passing over a span that a token closes** is passing over the rest of it and dropping the
token. -/
theorem consumes_closedBy_iff {s s' : ParserState} {t : Token} {a : Span} :
    Consumes s (a.closedBy t) s' ↔ ∃ u, Consumes s a u ∧
      u.rest.head? = some t ∧ s' = { u with rest := u.rest.tail } := by
  constructor
  · rintro ⟨hrest, hdepth, hops, hnest, hle⟩
    refine ⟨{ s' with rest := t :: s'.rest }, ⟨?_, hdepth, hops, hnest, hle⟩, rfl, rfl⟩
    rw [hrest, closedBy, List.append_assoc]
    rfl
  · rintro ⟨u, ⟨hrest, hdepth, hops, hnest, hle⟩, hhead, rfl⟩
    obtain ⟨rest, hcons⟩ := List.head?_eq_some_iff.1 hhead
    refine ⟨?_, hdepth, hops, hnest, hle⟩
    rw [hrest, hcons, closedBy, List.append_assoc]
    rfl

end OperandCodec
