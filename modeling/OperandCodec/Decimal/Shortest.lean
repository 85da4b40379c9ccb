import OperandCodec.Decimal.Binary64
/-!
# Shortest decimals

The fewest significant digits that still read back as a given binary64
number, and among those the nearest to it. A decimal reads back when it
lies in the interval of reals that round to the number; the ends belong to
the interval when the mantissa is even. On a decimal grid it is enough to
test the two neighbours of the number itself.
-/

namespace OperandCodec
namespace Decimal

/-- The interval of reals that round to a number, in units of `2 ^ unit`: its lower end, the number
and its upper end. Below a power of two the numbers lie twice as dense. -/
structure Rounding where
  lower : Nat
  value : Nat
  upper : Nat
  unit : Int
  ends : Bool

/-- The interval of a number. -/
def Rounding.of (x : Binary64) : Rounding :=
  let m := x.mantissa
  { lower := if m = Binary64.mantissaBound / 2 ∧ x.exponent ≠ Binary64.minExponent then 4 * m - 1 else 4 * m - 2
    value := 4 * m
    upper := 4 * m + 2
    unit := x.exponent - 2
    ends := m % 2 = 0 }

/-- Whether `digits * 10 ^ e` lies in the interval; both sides are brought to whole numbers. -/
def Rounding.holds (r : Rounding) (digits : Nat) (e : Int) : Bool :=
  let d := (digits * Nat.pow 10 e.toNat) <<< (-r.unit).toNat
  let s := Nat.pow 10 (-e).toNat <<< r.unit.toNat
  if r.ends then r.lower * s ≤ d && d ≤ r.upper * s else r.lower * s < d && d < r.upper * s

/-- The exponent of the leading digit of a positive ratio: `10 ^ e ≤ num / den < 10 ^ (e + 1)`,
searched upward from `e` for `n` steps. -/
def leadingExponent (num den : Nat) : Nat → Int → Int
  | 0, e => e
  | n + 1, e =>
    let e' := e + 1
    if den * Nat.pow 10 e'.toNat ≤ num * Nat.pow 10 (-e').toNat then leadingExponent num den n e' else e

/-- The neighbour of a number on the grid of multiples of `10 ^ e` that reads back, if one does. -/
def onGrid? (x : Binary64) (e : Int) : Option Nat :=
  let r := Rounding.of x
  let n := x.num * Nat.pow 10 (-e).toNat
  let d := x.den * Nat.pow 10 e.toNat
  let below := n / d
  match r.holds below e, r.holds (below + 1) e with
  | true, true =>
    -- both read back: the nearer one, and the even one half-way
    let twice := 2 * (n % d)
    if twice < d || (twice = d && below % 2 = 0) then some below else some (below + 1)
  | true, false => some below
  | false, true => some (below + 1)
  | false, false => none

/-- The shortest decimal `digits * 10 ^ e` of a positive number, tried with up to `n` more digits
on grids from `10 ^ e` downward. -/
def searchGrid (x : Binary64) : Nat → Int → Nat × Int
  | 0, e => ((onGrid? x e).getD 0, e)
  | n + 1, e =>
    match onGrid? x e with
    | some digits => (digits, e)
    | none => searchGrid x n (e - 1)

/-- The shortest decimal of a number: its digits, and the exponent of the first of them. Seventeen
digits are enough for every number. -/
def shortest (x : Binary64) : List Char × Int :=
  if x.mantissa = 0 then (['0'], 0)
  else
    let top := leadingExponent x.num x.den 634 (-325)
    let (digits, e) := searchGrid x 16 top
    let written := Nat.toDigits 10 digits
    -- a grid point such as 10 has its zeros stripped; they stand for no precision
    let kept := (written.reverse.dropWhile (· = '0')).reverse
    (kept, e + (written.length - 1 : Nat))

/-- How a decimal is written as text. -/
structure Style where
  /-- The least exponent of the first digit that is written positionally. -/
  least : Int
  /-- The largest one. -/
  greatest : Int

/-- An exponent, which always carries its sign. -/
def exponentText (e : Int) : String :=
  (if e < 0 then "e-" else "e+") ++ String.ofList (Nat.toDigits 10 e.natAbs)

/-- The text of a decimal: positional with at least one digit behind the point, or scientific. -/
def Style.text (l : Style) (digits : List Char) (e : Int) : String :=
  if l.least ≤ e ∧ e ≤ l.greatest then
    if e < 0 then
      "0." ++ String.ofList (List.replicate (e.natAbs - 1) '0' ++ digits)
    else
      let whole := digits.take (e.toNat + 1)
      let rest := digits.drop (e.toNat + 1)
      String.ofList (whole ++ List.replicate (e.toNat + 1 - digits.length) '0') ++ "."
        ++ (if rest.isEmpty then "0" else String.ofList rest)
  else
    let rest := digits.drop 1
    String.ofList (digits.take 1) ++ (if rest.isEmpty then "" else "." ++ String.ofList rest)
      ++ exponentText e

end Decimal
end OperandCodec
