import OperandCodec.Record.Decode
import OperandCodec.Record.Encode
/-!
# Encodings

Which words encode a request, without a way of finding them: nothing is
written outside the arguments, every raw value is permitted, and every
argument decodes to the value that is asked for. Building succeeds where
there is exactly one such word.
-/

namespace OperandCodec

namespace Argument

/-- What an argument is asked to hold: the number of inputs at the call, or the value assigned. -/
def Asks (args : Assignment) (inputs : Nat) (a : Argument) (v : Value) : Prop :=
  if a.isInputs then v.toInt = inputs else args a.name = some v

/-- A raw value with which an argument holds what it is asked to. -/
structure Admits (args : Assignment) (inputs : Nat) (a : Argument) (raw : Word) : Prop where
  fits : raw.toNat ≤ a.bits.maxValue
  permitted : ValidRange.permits a.validRange raw.toValue
  decoded : ∃ v, a.Asks args inputs v ∧ Computation.applyOptional a.computation raw.toValue = .ok v

end Argument

/-- A word that encodes an assignment and a number of inputs. -/
structure Record.Encodes (r : Record) (args : Assignment) (inputs : Nat) (w : Word) : Prop where
  clear : ∀ i, w.getLsbD i → ∃ a ∈ r.arguments, i ∈ a.bits
  permitted : ∀ a ∈ r.arguments, ValidRange.permits a.validRange (w.unpack a.bits).toValue
  decoded : ∀ a ∈ r.arguments, ∃ v, a.Asks args inputs v ∧ a.decode w = .ok v

/-- Only the zero word encodes a request to an opcode without arguments. -/
theorem Record.Encodes.eq_zero {r : Record} {args : Assignment} {inputs : Nat} {w : Word}
    (h : r.Encodes args inputs w) (hr : r.arguments = []) : w = 0 := by
  refine BitVec.eq_of_getLsbD_eq fun i _ => ?_
  cases hw : w.getLsbD i with
  | false => simp
  | true =>
    obtain ⟨a, ha, -⟩ := h.clear i hw
    simp [hr] at ha

end OperandCodec
