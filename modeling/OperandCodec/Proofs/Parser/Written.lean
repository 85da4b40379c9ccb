import Mathlib.Tactic.Common
import OperandCodec.Expr.Derivation
/-!
# Written trees

How a tree is derived as it is written, with parentheses around every
operation and a sign in front of a negative literal (`Expr.written`). A tree
that was parsed holds no sign that a literal could take (`Expr.Folded`), so
it is the tree of what is written for it (`tree_written`), and what is
written tells such trees apart, whatever stands behind
(`written_append_inj`).
-/

namespace OperandCodec

/-- No two operators are written alike. -/
theorem BinaryOp.token_injective {op op' : BinaryOp} (h : op.token = op'.token) : op = op' := by
  cases op <;> cases op' <;> first | rfl | cases h

namespace Expr

/-- The derivation of a tree as it is written. -/
def written : Expr → Derivation .operand
  | literal n => if n < 0 then .minus (.literal (-n)) else .literal n
  | var => .var
  | negate e => .parens (.term (.single (.minus e.written)))
  | binary op l r =>
    if h : op.isAdditive then .parens (.add op h (.term (.single l.written)) (.single r.written))
    else .parens (.term (.times op (by simpa using h) (.single l.written) r.written))

/-- A tree as the parser builds it: a sign is taken into a literal, and no literal is the least
value. -/
def Folded : Expr → Prop
  | literal n => n ≠ Int64.minValue
  | var => True
  | negate e => (∀ n, e ≠ literal n) ∧ e.Folded
  | binary _ l r => l.Folded ∧ r.Folded

variable {v : Variable} {op : BinaryOp} {e l r : Expr} {n : Value}

/-! ## What is written -/

theorem tokens_written_literal (v : Variable) (n : Value) :
    (literal n).written.tokens v = if n < 0 then [.minus, .int (-n)] else [.int n] := by
  rw [written]
  split <;> rfl

theorem tokens_written_negate (v : Variable) (e : Expr) :
    (negate e).written.tokens v =
      .openParen :: .minus :: (e.written.tokens v ++ [.closeParen]) := rfl

theorem tokens_written_binary (v : Variable) (op : BinaryOp) (l r : Expr) :
    (binary op l r).written.tokens v =
      .openParen :: (l.written.tokens v ++ op.token :: (r.written.tokens v ++ [.closeParen])) := by
  rw [written]
  split <;> simp [Derivation.tokens]

/-- What is written is nested as deep as the tree says. -/
theorem nesting_written (e : Expr) : e.written.nesting = e.nesting := by
  induction e with
  | literal n =>
    rw [written, nesting]
    split <;> rfl
  | var => rfl
  | negate e ih =>
    rw [written, nesting, ← ih]
    exact Nat.add_comm _ 2
  | binary op l r ihl ihr =>
    rw [written, nesting, ← ihl, ← ihr]
    split <;> exact Nat.add_comm _ 1

/-- What is written has the operators of the tree. -/
theorem operators_written (e : Expr) : e.written.operators = e.operators := by
  induction e with
  | literal n =>
    rw [written]
    split <;> rfl
  | var => rfl
  | negate e ih => exact ih
  | binary op l r ihl ihr =>
    rw [written, operators, ← ihl, ← ihr]
    split <;> simp only [Derivation.operators] <;> omega

/-! ## Folded trees -/

/-- Negation is exact but at the least value. -/
theorem toInt_neg_of_ne_minValue (hn : n ≠ Int64.minValue) : (-n).toInt = -n.toInt := by
  have hmin : n.toInt ≠ Int64.minValue.toInt := mt Int64.toInt_inj.1 hn
  have hlo := n.le_toInt
  have hhi := n.toInt_lt
  rw [Int64.toInt_minValue] at hmin
  rw [Int64.toInt_neg, Int.bmod_eq_of_le] <;> omega

theorem minus_of_ne_literal (he : ∀ n, e ≠ literal n) : e.minus = negate e := by
  cases e with
  | literal n => exact absurd rfl (he n)
  | var | negate | binary => rfl

/-- A folded tree is the tree of what is written for it. -/
theorem tree_written (he : e.Folded) : e.written.tree = e := by
  induction e with
  | literal n =>
    rw [written]
    split
    · exact congrArg literal Int64.neg_neg
    · rfl
  | var => rfl
  | negate e ih =>
    show e.written.tree.minus = negate e
    rw [ih he.2, minus_of_ne_literal he.1]
  | binary op l r ihl ihr =>
    rw [written]
    split <;> simp only [Derivation.tree, ihl he.1, ihr he.2]

theorem Folded.minus (he : e.Folded) : e.minus.Folded := by
  cases e with
  | literal n =>
    intro hmin
    have hn := toInt_neg_of_ne_minValue he
    have hhi := n.toInt_lt
    rw [hmin, Int64.toInt_minValue] at hn
    omega
  | var | negate | binary => exact ⟨nofun, he⟩

/-- **What is parsed is folded**, where no literal is written as a negative one. -/
theorem folded_tree {p : Phrase} (d : Derivation p)
    (hd : ∀ n, .int n ∈ d.tokens v → 0 ≤ n.toInt) : d.tree.Folded := by
  induction d with
  | literal n =>
    rintro rfl
    have := hd _ (List.mem_singleton.2 rfl)
    rw [Int64.toInt_minValue] at this
    omega
  | var => trivial
  | plus d ih => exact ih fun n hn => hd n (List.mem_cons_of_mem _ hn)
  | minus d ih => exact (ih fun n hn => hd n (List.mem_cons_of_mem _ hn)).minus
  | parens d ih =>
    exact ih fun n hn => hd n (List.mem_cons_of_mem _ (List.mem_append_left _ hn))
  | single d ih | term d ih => exact ih hd
  | times op h l r ihl ihr | add op h l r ihl ihr =>
    refine ⟨ihl fun n hn => hd n (List.mem_append_left _ hn), ihr fun n hn => hd n ?_⟩
    exact List.mem_append_right _ (List.mem_cons_of_mem _ hn)

/-! ## Reading a written tree back -/

section Injective

variable {e' : Expr} {ts ts' : List Token}

/-- Only a literal is written with an integer in front. -/
theorem written_ne_int_cons (he : ∀ n, e ≠ literal n) :
    e.written.tokens v ++ ts ≠ .int n :: ts' := by
  cases e with
  | literal m => exact absurd rfl (he m)
  | var => nofun
  | negate e => nofun
  | binary op l r =>
    rw [tokens_written_binary]
    nofun

/-- A literal is written with neither a name nor a parenthesis in front. -/
theorem written_literal_ne (he : ∀ m, e ≠ literal m) :
    (literal n).written.tokens v ++ ts ≠ e.written.tokens v ++ ts' := by
  rw [tokens_written_literal]
  cases e with
  | literal m => exact absurd rfl (he m)
  | var | negate => split <;> nofun
  | binary =>
    rw [tokens_written_binary]
    split <;> nofun

theorem written_literal_inj {m : Value}
    (h : (literal n).written.tokens v ++ ts = (literal m).written.tokens v ++ ts') :
    n = m ∧ ts = ts' := by
  rw [tokens_written_literal, tokens_written_literal] at h
  split at h <;> split at h
  · obtain ⟨hint, hts⟩ := List.cons.inj (List.cons.inj h).2
    exact ⟨Int64.neg_inj.1 (Token.int.inj hint), hts⟩
  · cases (List.cons.inj h).1
  · cases (List.cons.inj h).1
  · obtain ⟨hint, hts⟩ := List.cons.inj h
    exact ⟨Token.int.inj hint, hts⟩

/-- Behind the parenthesis of a negation stands a sign. If a sign also stands in front of a left
operand, it is that of a literal, and a folded negation has none. -/
theorem written_negate_ne_binary (he : (negate e).Folded) :
    (negate e).written.tokens v ++ ts ≠ (binary op l r).written.tokens v ++ ts' := by
  rw [tokens_written_negate, tokens_written_binary, List.cons_append, List.cons_append]
  intro h
  replace h := (List.cons.inj h).2
  cases l with
  | literal n =>
    rw [tokens_written_literal] at h
    split at h
    · replace h := (List.cons.inj h).2
      rw [List.append_assoc] at h
      exact written_ne_int_cons he.1 h
    · cases (List.cons.inj h).1
  | var | negate l => cases (List.cons.inj h).1
  | binary op' l' r' =>
    rw [tokens_written_binary] at h
    cases (List.cons.inj h).1

/-- **What is written for a tree ends where the tree does**, and no other tree has it. -/
theorem written_append_inj (he : e.Folded) (he' : e'.Folded)
    (h : e.written.tokens v ++ ts = e'.written.tokens v ++ ts') : e = e' ∧ ts = ts' := by
  induction e generalizing e' ts ts' with
  | literal n =>
    cases e' with
    | literal m =>
      obtain ⟨rfl, hts⟩ := written_literal_inj h
      exact ⟨rfl, hts⟩
    | var | negate | binary => exact absurd h (written_literal_ne nofun)
  | var =>
    cases e' with
    | literal m => exact absurd h.symm (written_literal_ne nofun)
    | var => exact ⟨rfl, (List.cons.inj h).2⟩
    | negate e' => cases (List.cons.inj h).1
    | binary op l r =>
      rw [tokens_written_binary] at h
      cases (List.cons.inj h).1
  | negate e ih =>
    cases e' with
    | literal m => exact absurd h.symm (written_literal_ne nofun)
    | var => cases (List.cons.inj h).1
    | negate e' =>
      simp only [tokens_written_negate, List.cons_append, List.append_assoc, List.cons.injEq,
        true_and] at h
      obtain ⟨rfl, hrest⟩ := ih he.2 he'.2 h
      exact ⟨rfl, (List.cons.inj hrest).2⟩
    | binary op l r => exact absurd h (written_negate_ne_binary he)
  | binary op l r ihl ihr =>
    cases e' with
    | literal m => exact absurd h.symm (written_literal_ne nofun)
    | var =>
      rw [tokens_written_binary] at h
      cases (List.cons.inj h).1
    | negate e' => exact absurd h.symm (written_negate_ne_binary he')
    | binary op' l' r' =>
      simp only [tokens_written_binary, List.cons_append, List.append_assoc, List.cons.injEq,
        true_and] at h
      obtain ⟨rfl, hright⟩ := ihl he.1 he'.1 h
      obtain ⟨hop, hright⟩ := List.cons.inj hright
      obtain ⟨rfl, hclose⟩ := ihr he.2 he'.2 hright
      rw [BinaryOp.token_injective hop]
      exact ⟨rfl, (List.cons.inj hclose).2⟩

end Injective

end Expr
end OperandCodec
