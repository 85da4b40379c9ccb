import Mathlib.Tactic.Common
import OperandCodec.Proofs.Compiled
import OperandCodec.Proofs.Parser.Renaming
import OperandCodec.Proofs.RoundTrip
/-!
# The number of inputs survives the word

The argument for the number of inputs is encoded through a computation over
one variable, and computed inputs are read through a computation over
another. Where both are read from the same bits, and their sources are the
same but for the name of the variable, the number of inputs at the call is
the one that the word gives back (`inputs_of_build`). The two sources are
parsed apart from each other; that they have one tree is the commuting of
parsing with renaming. Computations come out of compilations only, so they
carry the trees of their sources (`LibraryCall.answer_compiled`); here that
is a hypothesis.
-/

namespace OperandCodec

/-- A computation of an argument and one of a computed arity, with sources that are the same but
for the name of the variable; or none for both. -/
inductive SameButForVariable : Option Computation → Option Computation → Prop where
  | absent : SameButForVariable none none
  | renamed {c c' : Computation} {tokens : List Token} : Token.ofSource c.source = .ok tokens →
      Token.ofSource c'.source = .ok (tokens.map (Token.renamed .arg .bits)) →
      SameButForVariable (some c) (some c')

/-- The tree of a compiled computation is that of the tokens of its source. -/
theorem Computation.Compiled.ofTokens_eq {c : Computation} {tokens : List Token}
    (h : c.Compiled) (htokens : Token.ofSource c.source = .ok tokens) :
    Expr.ofTokens tokens c.var = .ok c.expr := by
  rw [Compiled, Expr.ofSource, htokens] at h
  exact h

/-- Computations that are the same but for the variable have the same values. -/
theorem SameButForVariable.applyOptional_eq_ok {c c' : Option Computation}
    (h : SameButForVariable c c') (hc : ∀ k ∈ c, k.Compiled) (hc' : ∀ k ∈ c', k.Compiled)
    (harg : IsOver .arg c) (hbits : IsOver .bits c') {x v : Value}
    (hv : Computation.applyOptional c x = .ok v) : Computation.applyOptional c' x = .ok v := by
  cases h with
  | absent => exact hv
  | @renamed k k' tokens htokens htokens' =>
    have htree := (hc k rfl).ofTokens_eq htokens
    have htree' := (hc' k' rfl).ofTokens_eq htokens'
    rw [harg k rfl] at htree
    rw [hbits k' rfl, ofTokens_renamed htree, Except.ok.injEq] at htree'
    rw [Computation.applyOptional, Computation.apply, mapError_eq_ok_iff] at hv ⊢
    rw [← htree', hv]

/-- A count that is not negative is resolved. -/
theorem computedCount_eq_ok {arity : Arity} {bits : BitRange} {c : Option Computation} {w : Word}
    {count : Value} {n : Nat}
    (h : Computation.applyOptional c (w.unpack bits).toValue = .ok count) (hn : count.toInt = n) :
    computedCount arity bits c (some w) = .ok n := by
  have hneg : ¬ count.toInt < 0 := by omega
  rw [computedCount_some, h]
  show (if count.toInt < 0 then _ else _ : Except Error Nat) = _
  rw [if_neg hneg, hn, Int.toNat_natCast]

/-- **The number of inputs at the call is the one that the word gives back.** -/
theorem inputs_of_build (op : Opcode) (hcompiled : ∀ c ∈ op.computations, c.Compiled)
    (a : Argument) (ha : a ∈ op.arguments) (hname : a.isInputs) (c : Option Computation)
    (hinputs : op.inputs = .computed a.bits c) (hsame : SameButForVariable a.computation c)
    (args : Assignment) (n : Nat) (w : Word) (h : afresh (op.build args n) = .ok w) :
    op.inputs.resolve (some w) = .ok ⟨n, []⟩ := by
  obtain ⟨v, hask, hdec⟩ := exists_decode_of_build h ha
  rw [Argument.Asks, if_pos hname] at hask
  have hvalid : Inputs.Valid (.computed a.bits c) := hinputs ▸ op.valid.inputs
  have harg : ∀ k ∈ a.computation, k.Compiled := fun k hk =>
    hcompiled k (Record.mem_computations.2 (.inl ⟨a, ha, hk⟩))
  have hbits : ∀ k ∈ c, k.Compiled := fun k hk =>
    hcompiled k (Record.mem_computations.2 (.inr (.inl (hinputs ▸ hk))))
  have hcount := hsame.applyOptional_eq_ok harg hbits (op.valid.arguments a ha).computation hvalid
    hdec
  rw [hinputs, Inputs.resolve, computedCount_eq_ok hcount hask]
  rfl

/-- An opcode that writes an odd number of inputs as half of it, under two spellings. -/
def oddOpcode : Opcode where
  name := "take"
  desc := ""
  operand := .arguments [⟨"inputs", none, { lo := 2, hi := 5 },
    some ⟨"arg * 2 + 1", .arg,
      .binary .add (.binary .mul .var (.literal 2)) (.literal 1)⟩, none⟩]
  inputs := .computed { lo := 2, hi := 5 }
    (some ⟨"bits*2+1", .bits, .binary .add (.binary .mul .var (.literal 2)) (.literal 1)⟩)
  outputs := .fixed 1
  aliases := []
  sound := by decide

theorem inputs_of_build_odd :
    afresh (oddOpcode.build (.ofPairs []) 7) = .ok 0x0C ∧
      oddOpcode.inputs.resolve (some 0x0C) = .ok ⟨7, []⟩ := by
  have hbuild : afresh (oddOpcode.build (.ofPairs []) 7) = .ok 0x0C := by decide
  have hcompiled : ∀ c ∈ oddOpcode.computations, c.Compiled := by
    unfold Computation.Compiled
    decide +kernel
  have htokens : Token.ofSource "arg * 2 + 1" =
      .ok [.ident "arg", .star, .int 2, .plus, .int 1, .eof] := by decide +kernel
  have htokens' : Token.ofSource "bits*2+1" =
      .ok [.ident "bits", .star, .int 2, .plus, .int 1, .eof] := by decide +kernel
  exact ⟨hbuild, inputs_of_build oddOpcode hcompiled _ (.head _) rfl _ rfl
    (.renamed htokens htokens') _ 7 _ hbuild⟩

end OperandCodec
