import OperandCodec.Expr.Token
/-!
# Derivations

The grammar of expressions as data, apart from any way of parsing it. A
derivation says by which rules a phrase is built; its `tokens` are the
phrase, and its `tree` is what the phrase means. A sum is grouped to the
left, and so is a product; a plus sign leaves no trace in the tree, and a
minus sign is taken into a literal. The `plain` tree keeps every minus sign
as a negation; that the two trees have the same values is what makes the
folding safe.
-/

namespace OperandCodec

namespace BinaryOp

/-- Whether an operator joins the parts of a sum. -/
def isAdditive : BinaryOp → Bool
  | add | sub => true
  | mul | div | rem => false

/-- The token that an operator is written as. -/
def token : BinaryOp → Token
  | add => .plus
  | sub => .minus
  | mul => .star
  | div => .slash
  | rem => .percent

/-- No operator is written as the end of the source. -/
theorem token_ne_eof (op : BinaryOp) : op.token ≠ .eof := by
  cases op <;> exact Token.noConfusion

end BinaryOp

/-- The kinds of phrase, from the loosest to the tightest. -/
inductive Phrase where
  | sum
  | product
  | operand
deriving DecidableEq, Repr

/-- How a phrase is built by the rules of the grammar. -/
inductive Derivation : Phrase → Type where
  | literal (n : Value) : Derivation .operand
  | var : Derivation .operand
  | plus (d : Derivation .operand) : Derivation .operand
  | minus (d : Derivation .operand) : Derivation .operand
  | parens (d : Derivation .sum) : Derivation .operand
  /-- A product of one operand. -/
  | single (d : Derivation .operand) : Derivation .product
  | times (op : BinaryOp) (h : !op.isAdditive) (l : Derivation .product)
      (r : Derivation .operand) : Derivation .product
  /-- A sum of one product. -/
  | term (d : Derivation .product) : Derivation .sum
  | add (op : BinaryOp) (h : op.isAdditive) (l : Derivation .sum)
      (r : Derivation .product) : Derivation .sum

namespace Derivation

/-- The phrase that a derivation builds over a variable. -/
def tokens (v : Variable) {p : Phrase} : Derivation p → List Token
  | literal n => [.int n]
  | var => [.ident v.name]
  | plus d => .plus :: d.tokens v
  | minus d => .minus :: d.tokens v
  | parens d => .openParen :: (d.tokens v ++ [.closeParen])
  | single d => d.tokens v
  | times op _ l r => l.tokens v ++ op.token :: r.tokens v
  | term d => d.tokens v
  | add op _ l r => l.tokens v ++ op.token :: r.tokens v

/-- The tree of a phrase. -/
def tree {p : Phrase} : Derivation p → Expr
  | literal n => .literal n
  | var => .var
  | plus d => d.tree
  | minus d => d.tree.minus
  | parens d => d.tree
  | single d => d.tree
  | times op _ l r => .binary op l.tree r.tree
  | term d => d.tree
  | add op _ l r => .binary op l.tree r.tree

/-- The tree of a phrase in which every minus sign is a negation. -/
def plain {p : Phrase} : Derivation p → Expr
  | literal n => .literal n
  | var => .var
  | plus d => d.plain
  | minus d => .negate d.plain
  | parens d => d.plain
  | single d => d.plain
  | times op _ l r => .binary op l.plain r.plain
  | term d => d.plain
  | add op _ l r => .binary op l.plain r.plain

/-- The number of signs and parentheses around the token that has the most of them. -/
def nesting {p : Phrase} : Derivation p → Nat
  | literal _ => 0
  | var => 0
  | plus d => d.nesting + 1
  | minus d => d.nesting + 1
  | parens d => d.nesting + 1
  | single d => d.nesting
  | times _ _ l r => max l.nesting r.nesting
  | term d => d.nesting
  | add _ _ l r => max l.nesting r.nesting

/-- The number of binary operators. -/
def operators {p : Phrase} : Derivation p → Nat
  | literal _ => 0
  | var => 0
  | plus d => d.operators
  | minus d => d.operators
  | parens d => d.operators
  | single d => d.operators
  | times _ _ l r => l.operators + r.operators + 1
  | term d => d.operators
  | add _ _ l r => l.operators + r.operators + 1

theorem operators_minus (e : Expr) : e.minus.operators = e.operators := by
  cases e <;> rfl

/-- **The tree has the operators of its phrase**, whatever signs and parentheses are dropped. -/
theorem operators_tree {p : Phrase} (d : Derivation p) : d.tree.operators = d.operators := by
  induction d with
  | literal | var => rfl
  | minus d ih => exact (operators_minus d.tree).trans ih
  | plus d ih | parens d ih | single d ih | term d ih => exact ih
  | times _ _ l r ihl ihr | add _ _ l r ihl ihr =>
    simp only [tree, operators, Expr.operators, ihl, ihr]
    omega

/-- No phrase is empty. -/
theorem tokens_ne_nil (v : Variable) {p : Phrase} (d : Derivation p) : d.tokens v ≠ [] := by
  induction d with
  | literal | var | plus | minus | parens => exact List.cons_ne_nil _ _
  | single d ih | term d ih => exact ih
  | times | add => exact List.append_ne_nil_of_right_ne_nil _ (List.cons_ne_nil _ _)

/-- The end of the source is in no phrase. -/
theorem eof_notMem_tokens (v : Variable) {p : Phrase} (d : Derivation p) : .eof ∉ d.tokens v := by
  have hop : ∀ op : BinaryOp, .eof ≠ op.token := fun op => op.token_ne_eof.symm
  induction d with
  | literal | var => simp [tokens]
  | plus d ih | minus d ih | parens d ih => simp [tokens, ih]
  | single d ih | term d ih => exact ih
  | times op _ l r ihl ihr | add op _ l r ihl ihr => simp [tokens, ihl, ihr, hop]

/-- The phrase `-2 * -arg`, with a sign in a literal and one before the variable. -/
example :
    let d : Derivation .product := times .mul rfl (single (minus (literal 2))) (minus var)
    d.tokens .arg = [.minus, .int 2, .star, .minus, .ident "arg"] ∧
      d.tree = .binary .mul (.literal (-2)) (.negate .var) ∧
      d.plain = .binary .mul (.negate (.literal 2)) (.negate .var) ∧ d.nesting = 1 := by
  decide

end Derivation
end OperandCodec
