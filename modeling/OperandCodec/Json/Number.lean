import OperandCodec.Json.Reader
/-!
# Numbers

A number without point or exponent is an integer if it is one of the
64-bit integers, signed or unsigned; every other number is a real. A real
is rounded twice: its significand is the longest run of leading digits
below `2 ^ 64`, rounded, and this is multiplied or divided by a rounded
power of ten. A significand that stays too large has no number.
-/

namespace OperandCodec
namespace Json

/-- The largest significand. -/
def maxSignificand : Nat := 0xFFFFFFFFFFFFFFFF

/-- The largest exponent that is read as it stands. -/
def maxExponent : Nat := 0x7FFFFFFF

/-- The powers of ten that a significand is scaled by in one step reach up to this exponent. -/
def maxPower : Nat := 308

/-- Goes on with a significand for as many digits as fit; returns it and the digits left over. -/
def absorb : (significand : Nat) → List Char → Nat × List Char
  | n, [] => (n, [])
  | n, c :: cs =>
    let n' := 10 * n + Text.digitValue c
    if n' ≤ maxSignificand then absorb n' cs else (n, c :: cs)

/-- The rounded power of ten. -/
def power? (e : Nat) : Option Binary64 :=
  Binary64.ofRatio? (Nat.pow 10 e) 1

/-- Divides by the largest power of ten until the exponent is in its reach, or nothing is left. -/
def scaleDown (x : Binary64) (e : Int) : Option Binary64 :=
  if x.mantissa = 0 then some x
  else if e < -maxPower then do
    let x' ← x.div? (← power? maxPower)
    scaleDown x' (e + maxPower)
  else do x.div? (← power? e.natAbs)
termination_by (-e).toNat
decreasing_by simp only [maxPower] at *; omega

/-- The real `significand * 10 ^ e`, if it is not too large. -/
def real? (significand : Nat) (e : Int) : Option Binary64 := do
  let x ← Binary64.ofRatio? significand 1
  if e < 0 then scaleDown x e
  else if e ≤ maxPower then x.mul? (← power? e.toNat)
  else if x.mantissa = 0 then some x
  else none

/-- The digits at the front of a text, and what is behind them. -/
def digits (s : List Char) : List Char × Tail s :=
  (s.takeWhile Char.isDigit, .dropWhile Char.isDigit s)

/-- A real with its sign. -/
def realOf (negative : Bool) (significand : Nat) (e : Int) : Except JsonError JsonNumber :=
  match real? significand e with
  | some x => .ok (.real negative x)
  | none => .error .numberOutOfRange

/-- Whether the sign at the front of an exponent is a minus, and what is behind it; it may be left
out. -/
def exponentSign (s : List Char) : Bool × Tail s :=
  match s with
  | '+' :: t => (false, (Tail.all t).cons '+')
  | '-' :: t => (true, (Tail.all t).cons '-')
  | t => (false, .all t)

/-- Reads an exponent behind its letter and finishes the real. -/
def exponentPart (negative : Bool) (significand : Nat) (e : Int) (s : List Char) :
    Except JsonError (JsonNumber × Tail s) := do
  let (below, t) := exponentSign s
  let (ds, r) := digits t.1
  if ds.isEmpty then throw (if t.1.isEmpty then .eofValue else .invalidNumber)
  let x := Text.ofDigits 10 ds
  let n ←
    if x ≤ maxExponent then realOf negative significand (if below then e - x else e + x)
    else if significand ≠ 0 ∧ ¬ below then throw .numberOutOfRange
    else pure (.real negative Binary64.zero)
  return (n, t.andThen r)

/-- Finishes a real whose digits have been read, with its exponent if one follows. -/
def realTail (negative : Bool) (significand : Nat) (e : Int) (s : List Char) :
    Except JsonError (JsonNumber × Tail s) :=
  match s with
  | c :: t =>
    if c = 'e' ∨ c = 'E' then do
      let (n, r) ← exponentPart negative significand e t
      return (n, r.cons c)
    else do return (← realOf negative significand e, .all (c :: t))
  | [] => do return (← realOf negative significand e, .all [])

/-- Reads the digits behind a point and finishes the real. -/
def fractionPart (negative : Bool) (significand : Nat) (e : Int) (s : List Char) :
    Except JsonError (JsonNumber × Tail s) := do
  let (ds, r) := digits s
  if ds.isEmpty then throw (if s.isEmpty then .eofValue else .invalidNumber)
  let (significand, left) := absorb significand ds
  let (n, r') ← realTail negative significand (e - (ds.length - left.length : Nat)) r.1
  return (n, r.andThen r')

/-- The number that an integer part stands for by itself. -/
def integerOf (negative : Bool) (n : Nat) : JsonNumber :=
  if !negative then .integer n
  else if 0 < n ∧ n ≤ 0x8000000000000000 then .integer (-n)
  else .real true ((Binary64.ofRatio? n 1).getD Binary64.zero)

/-- Finishes a number behind its integer part, of which `left` digits are not in the significand. -/
def integerTail (negative : Bool) (significand left : Nat) (s : List Char) :
    Except JsonError (JsonNumber × Tail s) :=
  match s with
  | '.' :: t => do
    let (n, r) ← fractionPart negative significand left t
    return (n, r.cons '.')
  | s =>
    let marked := s.head?.any fun c => c == 'e' || c == 'E'
    if left = 0 ∧ !marked then .ok (integerOf negative significand, .all s)
    else realTail negative significand left s

/-- Reads a number behind its sign. -/
def unsignedNumeral (negative : Bool) : Reader JsonNumber
  | [] => .error .eofValue
  | c :: cs =>
    if !c.isDigit || (c = '0' && cs.head?.any Char.isDigit) then .error .invalidNumber
    else do
      let (ds, r) := digits cs
      let (significand, left) := absorb (Text.digitValue c) ds
      let (n, r') ← integerTail negative significand left.length r.1
      return (n, (r.andThen r').behind c)

/-- Reads a number. -/
def numeral : Reader JsonNumber
  | '-' :: s => (unsignedNumeral true s).map fun (n, r) => (n, r.cons '-')
  | s => unsignedNumeral false s

end Json
end OperandCodec
