import Mathlib.Tactic.Common
import OperandCodec.Proofs.Encode
import OperandCodec.Proofs.Validity
/-!
# One encoding or none

A request may be encoded by several words, by one, or by none. Building
works field by field and never looks at the words as a whole; still it
succeeds exactly where the request has one encoding, and with that one
(`build_eq_ok_iff_only_encoding`). The hard direction is that a request with
one encoding is not refused: a second raw value of a single field would make
a second word, since packing it disturbs no other field.
-/

namespace OperandCodec
namespace Record

variable {r : Record} {args : Assignment} {n : Nat} {w w' : Word}

/-- An encoding with one field packed anew is an encoding, where the argument admits it. -/
theorem Encodes.pack {a : Argument} {raw : Word} (hr : r.arguments.Pairwise Argument.Apart)
    (h : r.Encodes args n w) (ha : a ∈ r.arguments) (hraw : a.Admits args n raw)
    (hpack : w.pack a.bits raw.toValue = .ok w') : r.Encodes args n w' := by
  obtain ⟨hclear, hadmits⟩ := encodes_iff.1 h
  refine encodes_iff.2 ⟨fun i hi => ?_, fun b hb => ?_⟩
  · rw [Word.getLsbD_pack hpack] at hi
    split at hi
    · exact ⟨a, ha, ‹_›⟩
    · exact hclear i hi
  · by_cases hab : a = b
    · subst hab
      rw [Word.unpack_pack hpack]
      exact hraw
    · -- the bits of `b` are none of those packed, so its raw value is the one of `w`
      have hapart := Argument.Apart.of_mem hr ha hb hab
      rw [Word.unpack_pack_of_disjoint hpack hapart.bits]
      exact hadmits b hb

/-- Two encodings with the same content of every field are the same word. -/
theorem Encodes.eq_of_unpack_eq (h : r.Encodes args n w) (h' : r.Encodes args n w')
    (hfields : ∀ a ∈ r.arguments, w'.unpack a.bits = w.unpack a.bits) : w' = w := by
  refine Word.eq_of_unpack_eq (r.arguments.map (·.bits)) ?_ fun i hi => ?_
  · rw [List.forall_mem_map]
    exact hfields
  · rw [List.forall_mem_map] at hi
    have hoff : ∀ x : Word, r.Encodes args n x → x.getLsbD i = false := by
      intro x hx
      rw [Bool.eq_false_iff]
      intro hxi
      obtain ⟨a, ha, hia⟩ := hx.clear i hxi
      exact hi a ha hia
    rw [hoff w' h', hoff w h]

/-- An argument whose value is asked for is the one of the inputs or has an assigned value. -/
theorem Encodes.assigned (h : r.Encodes args n w) {a : Argument} (ha : a ∈ r.arguments)
    (hinputs : ¬ a.isInputs) : ∃ v, args a.name = some v := by
  obtain ⟨v, hask, -⟩ := h.decoded a ha
  rw [Argument.Asks, if_neg hinputs] at hask
  exact ⟨v, hask⟩

/-- The only encoding is built: a field that admitted another raw value could be packed with it,
which would be another encoding. -/
theorem build_of_only_encoding (hr : r.arguments.Pairwise Argument.Apart)
    (h : r.Encodes args n w) (honly : ∀ w', r.Encodes args n w' → w' = w) :
    afresh (r.build args n) = .ok w := by
  obtain ⟨hclear, hadmits⟩ := encodes_iff.1 h
  refine (build_eq_ok_iff hr).2 ⟨fun a ha raw => ⟨fun hraw => ?_, ?_⟩, hclear⟩
  · -- packing `raw` into `w` makes an encoding, which can only be `w` itself
    obtain ⟨w', hpack⟩ := Word.exists_pack w hraw.fits
    have hsame : w' = w := honly w' (h.pack hr ha hraw hpack)
    rw [← hsame, Word.unpack_pack hpack]
  · rintro rfl
    exact hadmits a ha

/-- What is built is the only encoding. -/
theorem only_encoding_of_build (hr : r.arguments.Pairwise Argument.Apart)
    (h : afresh (r.build args n) = .ok w) (h' : r.Encodes args n w') : w' = w := by
  have hin := ((build_eq_ok_iff hr).1 h).1
  refine (encodes_of_build hr h).eq_of_unpack_eq h' fun a ha => ?_
  exact (hin a ha _).1 ((encodes_iff.1 h').2 a ha)

end Record

/-- **Building succeeds exactly where the request has one encoding, and with that one.** A request
with several encodings is refused, and so is one with none; an opcode without arguments has the
zero word. -/
theorem build_eq_ok_iff_only_encoding (op : Opcode) (args : Assignment) (n : Nat) :
    (∀ w, afresh (op.build args n) = .ok w ↔
      (∀ a ∈ op.arguments, ¬ a.isInputs → ∃ v, args a.name = some v) ∧
        op.Encodes args n w ∧ ∀ w', op.Encodes args n w' → w' = w) ∧
      (op.operand = .zero → afresh (op.build args n) = .ok 0) := by
  have hapart := op.valid.apart
  refine ⟨fun w => ⟨fun h => ?_, ?_⟩, fun hzero => ?_⟩
  · have henc := Record.encodes_of_build hapart h
    exact ⟨fun a => henc.assigned, henc, fun w' => Record.only_encoding_of_build hapart h⟩
  · rintro ⟨-, henc, honly⟩
    exact Record.build_of_only_encoding hapart henc honly
  · have hnone : op.arguments = [] := by
      rw [Record.arguments, hzero]
    rw [Record.build, hnone]
    rfl

end OperandCodec
