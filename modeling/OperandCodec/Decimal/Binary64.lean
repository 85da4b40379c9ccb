/-!
# Binary floating point in sixty-four bits

The non-negative numbers that binary64 holds, as `mantissa * 2 ^ exponent`,
with the rounding of a ratio to the nearest of them. Everything is exact
arithmetic on naturals; a ratio too large for the format has no number.
-/

namespace OperandCodec

/-- A finite non-negative number of the format: `mantissa * 2 ^ exponent`, where the mantissa has at
most 53 bits and has 53 unless the exponent is the least one. -/
structure Binary64 where
  mantissa : Nat
  exponent : Int
deriving DecidableEq, Repr

namespace Binary64

/-- The exponent of the least positive number. -/
def minExponent : Int := -1074

/-- The exponent of the largest numbers. -/
def maxExponent : Int := 971

/-- The bound of the mantissas, which have at most 53 bits. -/
def mantissaBound : Nat := 0x20000000000000

/-- Zero. -/
def zero : Binary64 := ⟨0, minExponent⟩

/-- The quotient rounded to a natural number, a half to the even neighbour. -/
def roundHalfEven (num den : Nat) : Nat :=
  let q := num / den
  let twice := 2 * (num % den)
  if twice < den then q
  else if den < twice then q + 1
  else q + q % 2

/-- The ratio `num / den`, scaled by `2 ^ (-e)`, as a numerator and a denominator. -/
def scaled (num den : Nat) (e : Int) : Nat × Nat :=
  if e < 0 then (num <<< e.natAbs, den) else (num, den <<< e.natAbs)

/-- The exponent at which the ratio has a mantissa of 53 bits, or the least exponent. -/
def exponentOf (num den : Nat) : Int :=
  let e := max ((num.log2 : Int) - den.log2 - 53) minExponent
  let (n, d) := scaled num den e
  if n < d * mantissaBound then e else e + 1

/-- The number nearest to a ratio, a tie to the even mantissa. -/
def ofRatio? (num den : Nat) : Option Binary64 :=
  let e := exponentOf num den
  let (n, d) := scaled num den e
  let m := roundHalfEven n d
  let x : Binary64 := if m = mantissaBound then ⟨mantissaBound / 2, e + 1⟩ else ⟨m, e⟩
  if num = 0 then some zero else if x.exponent ≤ maxExponent then some x else none

/-- The numerator of a number written as a ratio. -/
def num (x : Binary64) : Nat :=
  x.mantissa <<< x.exponent.toNat

/-- The denominator of a number written as a ratio. -/
def den (x : Binary64) : Nat :=
  1 <<< (-x.exponent).toNat

/-- The rounded product. -/
def mul? (x y : Binary64) : Option Binary64 :=
  ofRatio? (x.num * y.num) (x.den * y.den)

/-- The rounded quotient by a positive number. -/
def div? (x y : Binary64) : Option Binary64 :=
  ofRatio? (x.num * y.den) (x.den * y.num)

example : ofRatio? 1 10 = some ⟨7205759403792794, -56⟩ := by decide +kernel
example : ofRatio? (1 <<< 1024 - 1) 1 = none := by decide +kernel
example : ofRatio? 0 1 = some zero := by decide +kernel

end Binary64
end OperandCodec
