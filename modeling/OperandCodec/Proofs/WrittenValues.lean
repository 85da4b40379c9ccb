import OperandCodec.CommandLine.Options
import OperandCodec.Proofs.Scanning
/-!
# Values that are written down

The text of a value is read as that value, the least one included: its
digits have no zeros in front and its sign is a minus sign or none. A count
is read from its digits in the same way. And pairs of names and values,
each name once, assign to each name its value and to no other name any.
-/

namespace OperandCodec

open Text

/-! ## Numerals -/

/-- A decimal digit is a digit of the base ten. -/
theorem isDigitOf_ten {c : Char} (h : c.isDigit) : isDigitOf 10 c := by
  have hbounds := Char.isDigit_iff_toNat.1 h
  have hnine : '9'.toNat = 57 := rfl
  have hzero : '0'.toNat = 48 := rfl
  have hlt : digitValue c < 10 := by
    rw [digitValue, if_pos h]
    omega
  simp [isDigitOf, Char.isAlphanum, h, hlt]

theorem isDigit_of_mem_toDigits {n : Nat} {c : Char} (h : c ∈ Nat.toDigits 10 n) : c.isDigit :=
  Nat.isDigit_of_mem_toDigits (by decide) (by decide) h

/-- **The digits of a number denote it.** -/
theorem readDigits?_toDigits (n : Nat) : readDigits? 10 (Nat.toDigits 10 n) = some n := by
  have hall : (Nat.toDigits 10 n).all (isDigitOf 10) = true :=
    List.all_eq_true.2 fun c hc => isDigitOf_ten (isDigit_of_mem_toDigits hc)
  have hne : (Nat.toDigits 10 n).isEmpty = false := by
    simp [Nat.toDigits_ne_nil]
  rw [readDigits?, hall, hne, ofDigits_eq_ofDigitChars fun c hc => isDigit_of_mem_toDigits hc,
    Nat.ofDigitChars_toDigits (by decide) (by decide)]
  rfl

/-- The digits of a number start with a digit, so with no sign. -/
theorem exists_toDigits_eq_cons (n : Nat) :
    ∃ c cs, Nat.toDigits 10 n = c :: cs ∧ c.isDigit := by
  obtain ⟨c, cs, hcons⟩ := List.exists_cons_of_ne_nil (Nat.toDigits_ne_nil (b := 10) (n := n))
  exact ⟨c, cs, hcons, isDigit_of_mem_toDigits (hcons ▸ List.mem_cons_self)⟩

/-- A count that is not too large is read from its digits. -/
theorem readUnsigned?_toDigits {n max : Nat} (h : n ≤ max) :
    readUnsigned? 10 max (Nat.toDigits 10 n) = some n := by
  obtain ⟨c, cs, hcons, hc⟩ := exists_toDigits_eq_cons n
  have hread := readDigits?_toDigits n
  rw [hcons] at hread ⊢
  have hplus : c ≠ '+' := by
    rintro rfl
    cases hc
  simp [readUnsigned?, hplus, hread, h]

/-- The number of a value is read from its text. -/
theorem readSigned?_text (v : Value) : readSigned? v.text.toList = some v.toInt := by
  have hread := readDigits?_toDigits v.toInt.natAbs
  rw [toList_text]
  by_cases hneg : v < 0
  · have hint : v.toInt < 0 := neg_iff_toInt_neg.1 hneg
    have habs : -(v.toInt.natAbs : Int) = v.toInt := by omega
    rw [if_pos hneg, List.singleton_append, readSigned?, hread]
    exact congrArg some habs
  · have hint : 0 ≤ v.toInt := Int.not_lt.1 (mt neg_iff_toInt_neg.2 hneg)
    obtain ⟨c, cs, hcons, hc⟩ := exists_toDigits_eq_cons v.toInt.natAbs
    have hminus : c ≠ '-' := by
      rintro rfl
      cases hc
    have hplus : c ≠ '+' := by
      rintro rfl
      cases hc
    rw [if_neg hneg, List.nil_append]
    rw [hcons] at hread ⊢
    simp [readSigned?, hminus, hplus, hread, Int.natAbs_of_nonneg hint]

/-- **A value is read from its text.** -/
theorem readValue?_text (v : Value) : CommandLine.readValue? v.text.toList = some v := by
  rw [CommandLine.readValue?, readSigned?_text, Option.bind_some, Value.ofInt?_toInt]

/-- The text of a value consists of digits and a minus sign. -/
theorem isDigit_or_minus_of_mem_text {v : Value} {c : Char} (h : c ∈ v.text.toList) :
    c.isDigit ∨ c = '-' := by
  rw [toList_text, List.mem_append] at h
  rcases h with hsign | hdigit
  · split at hsign
    · exact .inr (List.mem_singleton.1 hsign)
    · cases hsign
  · exact .inl (isDigit_of_mem_toDigits hdigit)

/-! ## Assignments -/

/-- In a list with distinct keys, looking up a key gives the one entry that has it. -/
theorem lookup_eq_some_iff_mem {α : Type} {l : List (String × α)} (h : (l.map (·.1)).Nodup)
    {key : String} {a : α} : l.lookup key = some a ↔ (key, a) ∈ l := by
  rw [List.lookup_eq_some_iff]
  constructor
  · rintro ⟨before, behind, rfl, -⟩
    exact List.mem_append_right _ List.mem_cons_self
  · intro hmem
    obtain ⟨before, behind, rfl⟩ := List.append_of_mem hmem
    refine ⟨before, behind, rfl, fun p hp => ?_⟩
    rw [List.map_append, List.map_cons, List.nodup_append] at h
    exact bne_iff_ne.2 (h.2.2 p.1 (List.mem_map_of_mem hp) key List.mem_cons_self).symm

/-- **Pairs with distinct names assign to each name its value**, and to no other name any. -/
theorem Assignment.ofPairs_eq_some_iff {pairs : List (String × Value)}
    (h : (pairs.map (·.1)).Nodup) {name : String} {v : Value} :
    ofPairs pairs name = some v ↔ (name, v) ∈ pairs := by
  have hreverse : (pairs.reverse.map (·.1)).Nodup := by
    rw [List.map_reverse]
    exact List.nodup_reverse.2 h
  rw [ofPairs, lookup_eq_some_iff_mem hreverse, List.mem_reverse]

end OperandCodec
