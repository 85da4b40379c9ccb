/-!
# Logical values

The values that computations work on are 64-bit signed integers. A result
that has no such form is absent (`Value.ofInt?`), so arithmetic on values
is stated through the unbounded integers and never wraps.
-/

namespace OperandCodec

/-- A logical value: an integer from `-2^63` to `2^63 - 1`. -/
abbrev Value := Int64

namespace Value

/-- The value equal to an integer, if there is one. -/
def ofInt? (n : Int) : Option Value :=
  let v := Int64.ofInt n
  if v.toInt = n then some v else none

/-- The text of a value: decimal, with a minus sign below zero. -/
def text (v : Value) : String :=
  toString v.toInt

theorem ofInt?_eq_some_iff {n : Int} {v : Value} : ofInt? n = some v ↔ v.toInt = n := by
  simp only [ofInt?, Option.ite_none_right_eq_some, Option.some.injEq]
  constructor
  · rintro ⟨hn, rfl⟩
    exact hn
  · rintro rfl
    simp

@[simp] theorem ofInt?_toInt (v : Value) : ofInt? v.toInt = some v :=
  ofInt?_eq_some_iff.2 rfl

theorem ofInt?_eq_none_iff {n : Int} :
    ofInt? n = none ↔ n < Int64.minValue.toInt ∨ Int64.maxValue.toInt < n := by
  have lo : Int64.minValue.toInt = -0x8000000000000000 := rfl
  have hi : Int64.maxValue.toInt = 0x7FFFFFFFFFFFFFFF := rfl
  constructor
  · intro h
    by_cases hn : n < Int64.minValue.toInt ∨ Int64.maxValue.toInt < n
    · exact hn
    · have : (Int64.ofInt n).toInt = n := Int64.toInt_ofInt_of_le (by omega) (by omega)
      simp [ofInt?, this] at h
  · intro h
    have := (Int64.ofInt n).le_toInt
    have := (Int64.ofInt n).toInt_lt
    simp only [ofInt?, ite_eq_right_iff, reduceCtorEq, imp_false]
    omega

end Value
end OperandCodec
