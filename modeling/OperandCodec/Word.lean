import OperandCodec.Value
/-!
# The operand word and its bit ranges

An operand is a word of sixteen bits. Every argument and every computed
arity owns an inclusive range of positions in it: `pack` writes a value
into a range and leaves the other positions alone, `unpack` reads a range
back. Both are pinned down position by position (`getLsbD_mask`,
`getLsbD_pack`, `getLsbD_unpack`), which is what the independence of
disjoint ranges rests on.
-/

namespace OperandCodec

/-- The number of bits of an operand word. -/
def wordBits : Nat := 16

/-- An operand word; also a raw value, which is the content of a bit range. -/
abbrev Word := BitVec 16

/-- A raw value as a logical value. -/
def Word.toValue (w : Word) : Value :=
  Int64.ofNat w.toNat

theorem Word.toInt_toValue (w : Word) : (Word.toValue w).toInt = w.toNat := by
  have := w.isLt
  exact Int64.toInt_ofNat_of_lt (by omega)

/-- An inclusive range of positions in the operand word. -/
structure BitRange where
  lo : Nat
  hi : Nat
  lo_le_hi : lo ≤ hi := by omega
  hi_lt : hi < 16 := by omega
deriving DecidableEq, Repr

/-- A bit range as a message writes it. -/
def BitRange.text (b : BitRange) : String :=
  s!"[{b.lo}, {b.hi}]"

/-- Which of an opcode's two counts is meant. -/
inductive Arity where
  | inputs
  | outputs
deriving DecidableEq, Repr

/-- The name of an arity. -/
def Arity.name : Arity → String
  | inputs => "inputs"
  | outputs => "outputs"

/-- Why a range is none, or why a number does not fit where it has to go. -/
inductive RangeError where
  | startAfterEnd (start stop : Nat)
  | beyondWord (start stop : Nat)
  | doesNotFit (value : Value) (bits : BitRange)
  | countTooLarge (count : Nat)
  | negativeCount (arity : Arity) (count : Value) (raw : Word)
deriving DecidableEq, Repr

namespace BitRange

/-- The range from `start` to `stop`. -/
def ofPair? (start stop : Nat) : Except RangeError BitRange :=
  if order : stop < start then .error (.startAfterEnd start stop)
  else if bound : 16 ≤ stop then .error (.beyondWord start stop)
  else .ok { lo := start, hi := stop }

/-- A range holds the positions between its ends. -/
instance : Membership Nat BitRange :=
  ⟨fun b i => b.lo ≤ i ∧ i ≤ b.hi⟩

theorem mem_iff {b : BitRange} {i : Nat} : i ∈ b ↔ b.lo ≤ i ∧ i ≤ b.hi := Iff.rfl

instance (i : Nat) (b : BitRange) : Decidable (i ∈ b) :=
  inferInstanceAs (Decidable (_ ∧ _))

/-- The number of positions. -/
def width (b : BitRange) : Nat :=
  b.hi - b.lo + 1

/-- The largest value that fits. -/
def maxValue (b : BitRange) : Nat :=
  1 <<< b.width - 1

/-- The word with ones at the positions of the range. -/
def mask (b : BitRange) : Word :=
  BitVec.ofNat 16 b.maxValue <<< b.lo

/-- Whether two ranges share a position. -/
def overlaps (a b : BitRange) : Bool :=
  a.lo ≤ b.hi && b.lo ≤ a.hi

theorem lt_of_mem {b : BitRange} {i : Nat} (h : i ∈ b) : i < 16 := by
  have := b.hi_lt
  have := h.2
  omega

theorem width_le (b : BitRange) : b.width ≤ 16 := by
  have := b.hi_lt
  unfold width
  omega

theorem maxValue_lt (b : BitRange) : b.maxValue < 0x10000 := by
  have := Nat.pow_le_pow_right (n := 2) (by decide) b.width_le
  have : 0 < 2 ^ b.width := Nat.two_pow_pos _
  unfold maxValue
  omega

theorem overlaps_iff {a b : BitRange} : a.overlaps b ↔ ∃ i, i ∈ a ∧ i ∈ b := by
  have := a.lo_le_hi
  have := b.lo_le_hi
  simp only [overlaps, Bool.and_eq_true, decide_eq_true_eq, mem_iff]
  exact ⟨fun h => ⟨max a.lo b.lo, by omega⟩, fun ⟨i, h⟩ => by omega⟩

/-- **The mask holds exactly the positions of its range.** -/
theorem getLsbD_mask (b : BitRange) (i : Nat) : b.mask.getLsbD i = decide (i ∈ b) := by
  have := b.lo_le_hi
  have := b.hi_lt
  simp only [mask, maxValue, Nat.one_shiftLeft, BitVec.getLsbD_shiftLeft, BitVec.getLsbD_ofNat,
    Nat.testBit_two_pow_sub_one, width, ← Bool.decide_and, ← decide_not, decide_eq_decide, mem_iff]
  omega

end BitRange

/-- Writes a value into a range and keeps the other positions. -/
def Word.pack (w : Word) (b : BitRange) (v : Value) : Except RangeError Word :=
  if v.toInt < 0 ∨ (b.maxValue : Int) < v.toInt then .error (.doesNotFit v b)
  else .ok ((w &&& ~~~b.mask) ||| ((BitVec.ofInt 16 v.toInt <<< b.lo) &&& b.mask))

/-- The content of a range. -/
def Word.unpack (w : Word) (b : BitRange) : Word :=
  (w &&& b.mask) >>> b.lo

/-- The wording of a range error. -/
def RangeError.message : RangeError → String
  | startAfterEnd start stop => s!"bit range [{start}, {stop}] has start after end"
  | beyondWord start stop =>
    s!"bit range [{start}, {stop}] exceeds the {wordBits}-bit operand word"
  | doesNotFit v b => s!"value {v.text} does not fit in bits {b.text} (max {b.maxValue})"
  | countTooLarge count => s!"input count {count} does not fit an i64"
  | negativeCount arity count raw =>
    s!"computed {arity.name} count {count.text} from raw value {raw.toNat} is negative"

namespace Word

/-- A value is packed exactly when it lies between zero and the range's largest value. -/
theorem pack_eq_ok_iff {w w' : Word} {b : BitRange} {v : Value} :
    w.pack b v = .ok w' ↔ (0 ≤ v.toInt ∧ v.toInt ≤ b.maxValue) ∧
      w' = (w &&& ~~~b.mask) ||| ((BitVec.ofInt 16 v.toInt <<< b.lo) &&& b.mask) := by
  unfold pack
  split
  · simp; omega
  · simp only [Except.ok.injEq]
    exact ⟨fun h => ⟨by omega, h.symm⟩, fun h => h.2.symm⟩

/-- **Outside the range a packed word is the old one; inside it holds the value's bits.** -/
theorem getLsbD_pack {w w' : Word} {b : BitRange} {v : Value} (h : w.pack b v = .ok w') (i : Nat) :
    w'.getLsbD i = if i ∈ b then v.toInt.toNat.testBit (i - b.lo) else w.getLsbD i := by
  obtain ⟨⟨h0, -⟩, rfl⟩ := pack_eq_ok_iff.1 h
  obtain ⟨n, hn⟩ := Int.eq_ofNat_of_zero_le h0
  have hlt := fun hi : i ∈ b => BitRange.lt_of_mem hi
  simp only [hn, Int.toNat_natCast, BitVec.getLsbD_or, BitVec.getLsbD_and, BitVec.getLsbD_not,
    BitRange.getLsbD_mask, BitVec.getLsbD_shiftLeft]
  split
  · rename_i hi
    have := hlt hi
    have := hi.1
    have : i - b.lo < 16 := by omega
    simp only [hi, decide_true, Bool.not_true, Bool.and_false, Bool.false_or, Bool.and_true]
    rw [show (BitVec.ofInt 16 (n : Int)) = BitVec.ofNat 16 n from rfl, BitVec.getLsbD_ofNat]
    simp_all
  · rename_i hi
    simp [hi]
    intro hw
    exact BitVec.lt_of_getLsbD hw

/-- Position `j` of the content of a range is position `lo + j` of the word. -/
theorem getLsbD_unpack (w : Word) (b : BitRange) (j : Nat) :
    (w.unpack b).getLsbD j = (decide (b.lo + j ∈ b) && w.getLsbD (b.lo + j)) := by
  simp [unpack, BitVec.getLsbD_ushiftRight, BitRange.getLsbD_mask, Bool.and_comm]

end Word
end OperandCodec
