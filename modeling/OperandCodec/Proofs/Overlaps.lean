import Mathlib.Data.List.Flatten
import Mathlib.Data.List.Nodup
import Mathlib.Tactic.Common
import OperandCodec.Proofs.Isolation
import OperandCodec.Record.Shared
/-!
# Which arguments have a say in an arity

An argument and a computed arity may lie over the same bits, and the list of
overlaps says which do: it holds each such pair once, in order, and nothing
else (`mem_overlaps_iff`, `pairs_sublist`). It is also all that there is to
know. An arity looks at its own bits only (`resolvesAlike_of_bits`), and what
an argument is asked for is seen in its own bits only; so an argument that
does not overlap an arity has no say in it, and an arity that nothing
overlaps reads clear bits in every word that is built.
-/

namespace OperandCodec

namespace Record

variable {r : Record} {arity : Arity} {w w' : Word}

/-! ## The list -/

theorem mem_arityBits_iff {bits : BitRange} :
    (arity, bits) ∈ r.arityBits ↔ r.arityBits? arity = some bits := by
  rw [arityBits, List.mem_append, Option.mem_toList, Option.mem_toList]
  cases arity <;> simp [arityBits?]

/-- **The list holds the overlaps**, and nothing else. -/
theorem mem_overlaps_iff {o : Overlap} : o ∈ r.overlaps ↔ r.IsOverlap o := by
  simp only [overlaps, List.mem_flatMap, List.mem_filterMap, Prod.exists,
    Option.ite_none_right_eq_some, Option.some.injEq, BitRange.overlaps_iff, mem_arityBits_iff]
  constructor
  · rintro ⟨a, ha, arity, bits, hbits, hshared, rfl⟩
    exact ⟨a, ha, rfl, rfl, hbits, hshared⟩
  · rintro ⟨a, ha, hname, harg, hbits, hshared⟩
    refine ⟨a, ha, o.arity, o.arityBits, hbits, harg ▸ hshared, ?_⟩
    rw [hname, harg]

/-- The computed arities are listed inputs first. -/
theorem arities_sublist : (r.arityBits.map (·.1)).Sublist [Arity.inputs, Arity.outputs] := by
  unfold arityBits
  cases r.inputs.bits? <;> cases r.outputs.bits? <;> simp

/-- The arities that an argument overlaps, in their order. -/
theorem pairs_of_argument (a : Argument) (l : List (Arity × BitRange)) :
    (l.filterMap fun (arity, bits) =>
      if a.bits.overlaps bits then some (⟨a.name, a.bits, arity, bits⟩ : Overlap) else none).map
        Overlap.pair = ((l.filter (a.bits.overlaps ·.2)).map (·.1)).map (a.name, ·) := by
  induction l with
  | nil => rfl
  | cons p l ih =>
    cases hp : a.bits.overlaps p.2 with
    | false => simpa [hp] using ih
    | true => simpa [hp, Overlap.pair] using ih

/-- **The list is in argument order, inputs before outputs**: it is what is left of the list of all
pairs. -/
theorem pairs_sublist : (r.overlaps.map Overlap.pair).Sublist r.arityPairs := by
  rw [overlaps, List.map_flatMap]
  refine List.Sublist.flatMap_right _ fun a _ => ?_
  rw [pairs_of_argument]
  exact ((List.filter_sublist.map _).trans arities_sublist).map (a.name, ·)

/-- Where the names are distinct, so are the pairs. -/
theorem nodup_arityPairs (h : (r.arguments.map (·.name)).Nodup) : r.arityPairs.Nodup := by
  refine List.nodup_flatMap.2 ⟨fun a _ => by simp, ?_⟩
  refine (List.pairwise_map.1 h).imp fun {a b} hname p hpa hpb => ?_
  have hfst : ∀ {c : Argument}, p ∈ [(c.name, Arity.inputs), (c.name, Arity.outputs)] →
      p.1 = c.name := by
    intro c hp
    rcases List.mem_pair.1 hp with rfl | rfl <;> rfl
  exact hname ((hfst hpa).symm.trans (hfst hpb))

/-! ## What an arity looks at -/

/-- **An arity looks at its own bits only.** -/
theorem resolvesAlike_of_bits
    (h : ∀ bits, r.arityBits? arity = some bits → w.unpack bits = w'.unpack bits) :
    r.ResolvesAlike w w' arity := by
  cases arity with
  | inputs =>
    unfold ResolvesAlike
    cases hinputs : r.inputs with
    | zero | fixed => rfl
    | computed bits c =>
      have hbits := h bits (by rw [arityBits?, hinputs, Inputs.bits?])
      rw [Inputs.resolve, Inputs.resolve, computedCount_some, computedCount_some, hbits]
  | outputs =>
    unfold ResolvesAlike
    cases houtputs : r.outputs with
    | fixed => rfl
    | computed bits c =>
      have hbits := h bits (by rw [arityBits?, houtputs, Outputs.bits?])
      rw [Outputs.resolve, Outputs.resolve, computedCount_some, computedCount_some, hbits]

end Record

/-! ## Built words -/

section Built

variable {op : Opcode} {args args' : Assignment} {n n' : Nat} {w w' : Word} {a : Argument}
variable {arity : Arity}

/-- Where the pair of an argument and an arity is not listed, their bits are apart. -/
theorem notMem_of_notMem_overlaps {bits : BitRange} (ha : a ∈ op.arguments)
    (hbits : op.arityBits? arity = some bits)
    (h : (a.name, arity) ∉ op.overlaps.map Overlap.pair) {i : Nat} (hi : i ∈ bits) :
    i ∉ a.bits := by
  intro hia
  have hoverlap : op.IsOverlap ⟨a.name, a.bits, arity, bits⟩ :=
    ⟨a, ha, rfl, rfl, hbits, i, hia, hi⟩
  exact h (List.mem_map_of_mem (f := Overlap.pair) (Record.mem_overlaps_iff.2 hoverlap))

/-- **An argument has no say in an arity that it does not overlap.** -/
theorem resolvesAlike_of_others (hbuild : afresh (op.build args n) = .ok w)
    (hbuild' : afresh (op.build args' n') = .ok w') (ha : a ∈ op.arguments)
    (hothers : ∀ b ∈ op.arguments, b.name ≠ a.name → b.SameRequest args args' n n')
    (h : (a.name, arity) ∉ op.overlaps.map Overlap.pair) : op.ResolvesAlike w w' arity := by
  refine Record.resolvesAlike_of_bits fun bits hbits => Word.unpack_eq_iff.2 fun i hi => ?_
  exact getLsbD_eq_of_build hbuild hbuild' hothers ha (notMem_of_notMem_overlaps ha hbits h hi)

/-- **An arity that no argument overlaps is the same in every built word**: its bits are clear. -/
theorem resolvesAlike_of_no_overlap (hbuild : afresh (op.build args n) = .ok w)
    (hbuild' : afresh (op.build args' n') = .ok w')
    (h : ∀ o ∈ op.overlaps, o.arity ≠ arity) : op.ResolvesAlike w w' arity := by
  refine Record.resolvesAlike_of_bits fun bits hbits => Word.unpack_eq_iff.2 fun i hi => ?_
  have hnone : ∀ a ∈ op.arguments, i ∉ a.bits := by
    intro a ha
    refine notMem_of_notMem_overlaps ha hbits (fun hmem => ?_) hi
    obtain ⟨o, ho, hpair⟩ := List.mem_map.1 hmem
    exact h o ho (congrArg Prod.snd hpair)
  rw [getLsbD_eq_false_of_build hbuild hnone, getLsbD_eq_false_of_build hbuild' hnone]

end Built

/-- **The overlaps tell who has a say in an arity.** They are listed in argument order with inputs
before outputs, each pair once, and are the pairs whose ranges have a position in common. What is
put to an argument alone makes no difference to an arity that is not listed with it; and an arity
that is not listed at all is the same in every built word. -/
theorem overlaps_tell_influence (op : Opcode) :
    ((op.overlaps.map Overlap.pair).Sublist op.arityPairs ∧
        (op.overlaps.map Overlap.pair).Nodup ∧
        ∀ o, o ∈ op.overlaps ↔ op.IsOverlap o) ∧
      (∀ a ∈ op.arguments, ∀ arity, (a.name, arity) ∉ op.overlaps.map Overlap.pair →
        ∀ (args args' : Assignment) (n n' : Nat) (w w' : Word),
          (∀ b ∈ op.arguments, b.name ≠ a.name → b.SameRequest args args' n n') →
            afresh (op.build args n) = .ok w → afresh (op.build args' n') = .ok w' →
              op.ResolvesAlike w w' arity) ∧
      ∀ arity, (∀ o ∈ op.overlaps, o.arity ≠ arity) →
        ∀ (args args' : Assignment) (n n' : Nat) (w w' : Word),
          afresh (op.build args n) = .ok w → afresh (op.build args' n') = .ok w' →
            op.ResolvesAlike w w' arity := by
  have hnodup : (op.overlaps.map Overlap.pair).Nodup :=
    (Record.nodup_arityPairs (nodup_argument_names op)).sublist Record.pairs_sublist
  refine ⟨⟨Record.pairs_sublist, hnodup, fun o => Record.mem_overlaps_iff⟩, ?_, ?_⟩
  · intro a ha arity hpair args args' n n' w w' hothers hbuild hbuild'
    exact resolvesAlike_of_others hbuild hbuild' ha hothers hpair
  · intro arity hnone args args' n n' w w' hbuild hbuild'
    exact resolvesAlike_of_no_overlap hbuild hbuild' hnone

/-- An opcode whose inputs are counted by bits of two of its three arguments, and its outputs by
bits that no argument has. -/
def tallyOpcode : Opcode where
  name := "tally"
  desc := ""
  operand := .arguments [
    ⟨"kind", none, .between 0 3, none, none⟩,
    ⟨"inputs", none, .between 4 7, none, none⟩,
    ⟨"mode", none, .between 8 9, none, none⟩]
  inputs := .computed (.between 2 5) none
  outputs := .computed (.between 12 15)
    (some ⟨"bits + 1", .bits, .binary .add .var (.literal 1)⟩)
  aliases := []
  sound := by decide

/-- Another mode leaves the inputs as they are, and no request whatever changes the outputs; another
kind does change the inputs, which it overlaps. -/
theorem overlaps_tell_influence_of_tally :
    tallyOpcode.overlaps.map Overlap.pair = [("kind", .inputs), ("inputs", .inputs)] ∧
      afresh (tallyOpcode.build (.ofPairs [("kind", 3), ("mode", 1)]) 5) = .ok 0x153 ∧
      afresh (tallyOpcode.build (.ofPairs [("kind", 3), ("mode", 2)]) 5) = .ok 0x253 ∧
      afresh (tallyOpcode.build (.ofPairs [("kind", 12), ("mode", 2)]) 5) = .ok 0x25C ∧
      tallyOpcode.ResolvesAlike 0x153 0x253 .inputs ∧
      ¬ tallyOpcode.ResolvesAlike 0x253 0x25C .inputs ∧
      tallyOpcode.ResolvesAlike 0x153 0x25C .outputs := by
  obtain ⟨-, hothers, hnone⟩ := overlaps_tell_influence tallyOpcode
  have hfirst : afresh (tallyOpcode.build (.ofPairs [("kind", 3), ("mode", 1)]) 5) = .ok 0x153 := by
    decide
  have hmode : afresh (tallyOpcode.build (.ofPairs [("kind", 3), ("mode", 2)]) 5) = .ok 0x253 := by
    decide
  have hkind : afresh (tallyOpcode.build (.ofPairs [("kind", 12), ("mode", 2)]) 5) = .ok 0x25C := by
    decide
  refine ⟨by decide, hfirst, hmode, hkind, ?_, ?_, ?_⟩
  · refine hothers ⟨"mode", none, .between 8 9, none, none⟩ (by simp [Record.arguments,
      tallyOpcode]) .inputs (by decide) _ _ _ _ _ _ ?_ hfirst hmode
    unfold Argument.SameRequest
    decide
  · unfold Record.ResolvesAlike
    decide
  · exact hnone .outputs (by decide) _ _ _ _ _ _ hfirst hkind

end OperandCodec
