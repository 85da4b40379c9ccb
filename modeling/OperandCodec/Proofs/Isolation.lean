import Mathlib.Tactic.Common
import OperandCodec.Proofs.RoundTrip
/-!
# Arguments are isolated from each other

Two requests to one opcode. What is built depends on a request only through
what it puts to the declared arguments (`Record.build_congr`); and what one
argument is asked for is seen in its own bits and nowhere else, where it is
always seen (`build_isolates_arguments`). The second half rests on two facts
about built words: an argument holds the one raw value that it admits, and a
raw value decodes to one logical value.
-/

namespace OperandCodec

/-- Two requests put the same to an argument: the number of inputs, or the assigned value. -/
def Argument.SameRequest (args args' : Assignment) (n n' : Nat) (a : Argument) : Prop :=
  if a.isInputs then n = n' else args a.name = args' a.name

variable {args args' : Assignment} {n n' : Nat} {w w' : Word}

/-! ## What is put to one argument -/

section Requests

variable {a : Argument}

theorem Argument.sameRequest_iff_of_inputs (ha : a.isInputs) :
    a.SameRequest args args' n n' ↔ n = n' := by
  rw [SameRequest, if_pos ha]

theorem Argument.sameRequest_iff_of_named (ha : ¬ a.isInputs) :
    a.SameRequest args args' n n' ↔ args a.name = args' a.name := by
  rw [SameRequest, if_neg ha]

/-- Requests that ask an argument for the same value put the same to it. -/
theorem Argument.sameRequest_of_asks {v : Value} (h : a.Asks args n v)
    (h' : a.Asks args' n' v) : a.SameRequest args args' n n' := by
  unfold Asks at h h'
  by_cases ha : a.isInputs
  · rw [if_pos ha] at h h'
    rw [sameRequest_iff_of_inputs ha]
    omega
  · rw [if_neg ha] at h h'
    exact (sameRequest_iff_of_named ha).2 (h.trans h'.symm)

namespace Argument.SameRequest

theorem requested_eq {opcode : String} (h : a.SameRequest args args' n n') :
    a.requested opcode args n = a.requested opcode args' n' := by
  unfold requested
  by_cases ha : a.isInputs
  · rw [if_pos ha, if_pos ha, (sameRequest_iff_of_inputs ha).1 h]
  · rw [if_neg ha, if_neg ha, (sameRequest_iff_of_named ha).1 h]

theorem asks_iff (h : a.SameRequest args args' n n') {v : Value} :
    a.Asks args n v ↔ a.Asks args' n' v := by
  unfold Asks
  by_cases ha : a.isInputs
  · rw [if_pos ha, if_pos ha, (sameRequest_iff_of_inputs ha).1 h]
  · rw [if_neg ha, if_neg ha, (sameRequest_iff_of_named ha).1 h]

theorem admits_iff (h : a.SameRequest args args' n n') {raw : Word} :
    a.Admits args n raw ↔ a.Admits args' n' raw := by
  constructor
  · rintro ⟨hfits, hperm, v, hask, hdec⟩
    exact ⟨hfits, hperm, v, h.asks_iff.1 hask, hdec⟩
  · rintro ⟨hfits, hperm, v, hask, hdec⟩
    exact ⟨hfits, hperm, v, h.asks_iff.2 hask, hdec⟩

end Argument.SameRequest

end Requests

/-- **Building looks at nothing of a request but what it puts to the arguments**, whoever answers
for the computations. -/
theorem Record.build_congr {m : Type → Type} [Monad m] [MonadComputation m] {r : Record}
    (h : ∀ a ∈ r.arguments, a.SameRequest args args' n n') :
    (r.build args n : ExceptT Error m Word) = r.build args' n' := by
  refine foldlM_congr fun a ha w => ?_
  unfold Argument.packInto Argument.encode
  rw [(h a ha).requested_eq]

/-! ## What two built words have in common -/

section Built

variable {op : Opcode} {a : Argument}

/-- An argument that is asked for the same holds the same in both words. -/
theorem unpack_eq_of_sameRequest (h : afresh (op.build args n) = .ok w)
    (h' : afresh (op.build args' n') = .ok w') (ha : a ∈ op.arguments)
    (hsame : a.SameRequest args args' n n') : w.unpack a.bits = w'.unpack a.bits := by
  have hw := ((Record.build_eq_ok_iff op.valid.apart).1 h).1 a ha
  have hw' := ((Record.build_eq_ok_iff op.valid.apart).1 h').1 a ha
  exact (hw' _).1 (hsame.admits_iff.1 ((hw _).2 rfl))

/-- An argument that holds the same in both words was asked for the same. -/
theorem sameRequest_of_unpack_eq (h : afresh (op.build args n) = .ok w)
    (h' : afresh (op.build args' n') = .ok w') (ha : a ∈ op.arguments)
    (heq : w.unpack a.bits = w'.unpack a.bits) : a.SameRequest args args' n n' := by
  obtain ⟨v, hask, hdec⟩ := exists_decode_of_build h ha
  have hdec' : a.decode w' = .ok v := by
    rw [← hdec, Argument.decode, Argument.decode, heq]
  exact Argument.sameRequest_of_asks hask ((decode_eq_ok_iff_asks h' ha).1 hdec')

/-- A built word is clear at the positions that no argument owns. -/
theorem getLsbD_eq_false_of_build (h : afresh (op.build args n) = .ok w) {i : Nat}
    (hi : ∀ a ∈ op.arguments, i ∉ a.bits) : w.getLsbD i = false := by
  rw [Bool.eq_false_iff]
  intro hw
  obtain ⟨a, ha, hia⟩ := (Record.encodes_of_build op.valid.apart h).clear i hw
  exact hi a ha hia

/-- Words that are built with the same put to all arguments but `a` agree outside its bits. -/
theorem getLsbD_eq_of_build (h : afresh (op.build args n) = .ok w)
    (h' : afresh (op.build args' n') = .ok w')
    (hothers : ∀ b ∈ op.arguments, b.name ≠ a.name → b.SameRequest args args' n n')
    (ha : a ∈ op.arguments) {i : Nat} (hi : i ∉ a.bits) : w.getLsbD i = w'.getLsbD i := by
  by_cases hb : ∃ b ∈ op.arguments, i ∈ b.bits
  · obtain ⟨b, hb, hib⟩ := hb
    have hab : a ≠ b := by
      rintro rfl
      exact hi hib
    have hname := (Argument.Apart.of_mem op.valid.apart ha hb hab).name
    have hunpack := unpack_eq_of_sameRequest h h' hb (hothers b hb hname.symm)
    exact Word.unpack_eq_iff.1 hunpack i hib
  · have hnone : ∀ b ∈ op.arguments, i ∉ b.bits := fun b hmem hib => hb ⟨b, hmem, hib⟩
    rw [getLsbD_eq_false_of_build h hnone, getLsbD_eq_false_of_build h' hnone]

end Built

/-- **Arguments are isolated from each other.** Entries that no argument takes do not matter, nor
does the number of inputs where no argument takes it; and what is put to one argument alone makes a
difference in its own bits only, and always makes one there. -/
theorem build_isolates_arguments (op : Opcode) :
    (∀ (args args' : Assignment) (n : Nat),
        (∀ a ∈ op.arguments, ¬ a.isInputs → args a.name = args' a.name) →
          afresh (op.build args n) = afresh (op.build args' n)) ∧
      ((∀ a ∈ op.arguments, ¬ a.isInputs) → ∀ (args : Assignment) (n n' : Nat),
        afresh (op.build args n) = afresh (op.build args n')) ∧
      ∀ a ∈ op.arguments, ∀ (args args' : Assignment) (n n' : Nat) (w w' : Word),
        (∀ b ∈ op.arguments, b.name ≠ a.name → b.SameRequest args args' n n') →
          afresh (op.build args n) = .ok w → afresh (op.build args' n') = .ok w' →
            (∀ i, i ∉ a.bits → w.getLsbD i = w'.getLsbD i) ∧
              ((∃ i ∈ a.bits, w.getLsbD i ≠ w'.getLsbD i) ↔ ¬ a.SameRequest args args' n n') := by
  refine ⟨fun args args' n hargs => ?_, fun hnone args n n' => ?_,
    fun a ha args args' n n' w w' hothers h h' => ⟨fun i hi => ?_, ?_⟩⟩
  · refine congrArg afresh (Record.build_congr fun a ha => ?_)
    by_cases hinputs : a.isInputs
    · exact (Argument.sameRequest_iff_of_inputs hinputs).2 rfl
    · exact (Argument.sameRequest_iff_of_named hinputs).2 (hargs a ha hinputs)
  · refine congrArg afresh (Record.build_congr fun a ha => ?_)
    exact (Argument.sameRequest_iff_of_named (hnone a ha)).2 rfl
  · exact getLsbD_eq_of_build h h' hothers ha hi
  · have hdiff : (∃ i ∈ a.bits, w.getLsbD i ≠ w'.getLsbD i) ↔
        w.unpack a.bits ≠ w'.unpack a.bits := by
      rw [ne_eq, Word.unpack_eq_iff]
      push Not
      rfl
    rw [hdiff]
    exact not_congr ⟨sameRequest_of_unpack_eq h h' ha, unpack_eq_of_sameRequest h h' ha⟩

/-- Two calls with five and with nine inputs differ in the bits of the inputs, whatever else the
assignments hold. -/
theorem build_isolates_arguments_of_halving :
    afresh (halvingOpcode.build (.ofPairs [("half", 3)]) 5) = .ok 0x56 ∧
      afresh (halvingOpcode.build (.ofPairs [("half", 3), ("inputs", 0), ("other", 1)]) 9) =
        .ok 0x96 ∧
      ∀ a ∈ halvingOpcode.arguments, a.isInputs →
        (∀ i, i ∉ a.bits → (0x56 : Word).getLsbD i = (0x96 : Word).getLsbD i) ∧
          ∃ i ∈ a.bits, (0x56 : Word).getLsbD i ≠ (0x96 : Word).getLsbD i := by
  have hfive : afresh (halvingOpcode.build (.ofPairs [("half", 3)]) 5) = .ok 0x56 := by decide
  have hnine : afresh (halvingOpcode.build
      (.ofPairs [("half", 3), ("inputs", 0), ("other", 1)]) 9) = .ok 0x96 := by decide
  refine ⟨hfive, hnine, fun a ha hinputs => ?_⟩
  have hothers : ∀ b ∈ halvingOpcode.arguments, b.name ≠ a.name → b.SameRequest
      (.ofPairs [("half", 3)]) (.ofPairs [("half", 3), ("inputs", 0), ("other", 1)]) 5 9 := by
    rw [beq_iff_eq.1 hinputs]
    unfold Argument.SameRequest
    decide
  obtain ⟨-, -, hisolates⟩ := build_isolates_arguments halvingOpcode
  obtain ⟨hout, hin⟩ := hisolates a ha _ _ _ _ _ _ hothers hfive hnine
  refine ⟨hout, hin.2 ?_⟩
  rw [Argument.sameRequest_iff_of_inputs hinputs]
  decide

end OperandCodec
