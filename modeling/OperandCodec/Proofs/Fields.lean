import Mathlib.Algebra.Group.Nat.Defs
import Mathlib.Tactic.Common
import OperandCodec.Word
/-!
# Fields of a word

A bit range of a word is a field of it. Writing a field changes that field
and no other (`unpack_pack`, `unpack_pack_of_disjoint`), and a word is
determined by its fields together with the positions outside them
(`eq_of_unpack_eq`). Everything is read off the position-wise descriptions
of `pack` and `unpack`, so no mask is opened here.
-/

namespace OperandCodec

/-- The largest value of a range is all ones. -/
theorem BitRange.maxValue_eq (b : BitRange) : b.maxValue = 2 ^ b.width - 1 := by
  rw [maxValue, Nat.one_shiftLeft]

/-- The range between two positions, both of them included. What lies behind the word counts as its
last position. -/
def BitRange.between (i j : Nat) : BitRange where
  lo := min (min i j) 15
  hi := min (max i j) 15

namespace Word

variable {w w' : Word} {b c : BitRange} {v : Value}

/-- Raw values are told apart by their logical values. -/
theorem toValue_injective : Function.Injective Word.toValue := by
  intro r r' h
  have hr : (r.toNat : Int) = r'.toNat := by
    rw [← toInt_toValue, ← toInt_toValue, h]
  exact BitVec.eq_of_toNat_eq (by omega)

/-- The content of a range fits it. -/
theorem unpack_le (w : Word) (b : BitRange) : (w.unpack b).toNat ≤ b.maxValue := by
  have hlt : (w.unpack b).toNat < 2 ^ b.width := by
    refine Nat.lt_pow_two_of_testBit _ fun j hj => ?_
    rw [← BitVec.getLsbD, getLsbD_unpack]
    have hout : b.lo + j ∉ b := by
      have := b.lo_le_hi
      simp only [BitRange.width] at hj
      rw [BitRange.mem_iff]
      omega
    simp [hout]
  rw [b.maxValue_eq]
  omega

/-- A raw value that fits a range is packed. -/
theorem exists_pack {r : Word} (w : Word) (h : r.toNat ≤ b.maxValue) :
    ∃ w', w.pack b r.toValue = .ok w' := by
  refine ⟨_, pack_eq_ok_iff.2 ⟨?_, rfl⟩⟩
  rw [toInt_toValue]
  omega

/-- A value that is not packed does not fit, whatever the word is. -/
theorem pack_eq_error_iff {e : RangeError} : w.pack b v = .error e ↔
    (v.toInt < 0 ∨ (b.maxValue : Int) < v.toInt) ∧ e = .doesNotFit v b := by
  unfold pack
  split
  · rename_i hout
    simp only [hout, true_and, Except.error.injEq, eq_comm]
  · rename_i hin
    simp [hin]

/-- What is packed is the logical value of a raw value that fits. -/
theorem exists_raw_of_pack (h : w.pack b v = .ok w') :
    ∃ r : Word, r.toNat ≤ b.maxValue ∧ v = r.toValue := by
  obtain ⟨⟨h0, hmax⟩, -⟩ := pack_eq_ok_iff.1 h
  have hb := b.maxValue_lt
  refine ⟨BitVec.ofNat 16 v.toInt.toNat, ?_, ?_⟩
  · rw [BitVec.toNat_ofNat]
    omega
  · refine Int64.toInt_inj.1 ?_
    rw [toInt_toValue, BitVec.toNat_ofNat]
    omega

/-- **A packed range holds what was packed.** -/
theorem unpack_pack {r : Word} (h : w.pack b r.toValue = .ok w') : w'.unpack b = r := by
  obtain ⟨⟨-, hmax⟩, -⟩ := pack_eq_ok_iff.1 h
  rw [toInt_toValue] at hmax
  have hr : r.toNat < 2 ^ b.width := by
    have := b.maxValue_eq
    have := Nat.two_pow_pos b.width
    omega
  refine BitVec.eq_of_getLsbD_eq fun j _ => ?_
  rw [getLsbD_unpack, getLsbD_pack h, toInt_toValue, Int.toNat_natCast]
  by_cases hj : b.lo + j ∈ b
  · simp [hj, BitVec.getLsbD]
  · -- behind the range `r` has no bits, since it fits
    have hw : b.width ≤ j := by
      have := b.lo_le_hi
      rw [BitRange.mem_iff] at hj
      simp only [BitRange.width]
      omega
    have : r.toNat < 2 ^ j := Nat.lt_of_lt_of_le hr (Nat.pow_le_pow_right (by decide) hw)
    simp [hj, BitVec.getLsbD, Nat.testBit_lt_two_pow this]

/-- Two words have the same content of a range exactly where they agree at its positions. -/
theorem unpack_eq_iff :
    w.unpack b = w'.unpack b ↔ ∀ i ∈ b, w.getLsbD i = w'.getLsbD i := by
  constructor
  · intro h i hi
    have hj : b.lo + (i - b.lo) = i := by
      have := hi.1
      omega
    have := congrArg (·.getLsbD (i - b.lo)) h
    simpa only [getLsbD_unpack, hj, hi, decide_true, Bool.true_and] using this
  · intro h
    refine BitVec.eq_of_getLsbD_eq fun j _ => ?_
    rw [getLsbD_unpack, getLsbD_unpack]
    by_cases hj : b.lo + j ∈ b
    · rw [h _ hj]
    · simp [hj]

/-- **Another range keeps its content.** -/
theorem unpack_pack_of_disjoint (h : w.pack b v = .ok w') (hbc : ∀ i, i ∈ b → i ∉ c) :
    w'.unpack c = w.unpack c := by
  refine unpack_eq_iff.2 fun i hi => ?_
  rw [getLsbD_pack h, if_neg fun hb => hbc i hb hi]

/-- **A word is determined by its fields and the positions outside them.** -/
theorem eq_of_unpack_eq (ranges : List BitRange) (hin : ∀ b ∈ ranges, w.unpack b = w'.unpack b)
    (hout : ∀ i, (∀ b ∈ ranges, i ∉ b) → w.getLsbD i = w'.getLsbD i) : w = w' := by
  refine BitVec.eq_of_getLsbD_eq fun i _ => ?_
  by_cases hi : ∃ b ∈ ranges, i ∈ b
  · obtain ⟨b, hb, hib⟩ := hi
    exact unpack_eq_iff.1 (hin b hb) i hib
  · exact hout i fun b hb hib => hi ⟨b, hb, hib⟩

end Word
end OperandCodec
