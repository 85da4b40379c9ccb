import OperandCodec.Json.Reader
/-!
# Values that nobody asks for

The reader that passes over the value of an unknown field. It is laxer than
the reader of values: it counts no levels, takes a number for its digits
alone and an escape for its letters alone. And it is stricter about commas,
behind which it wants the next element or entry at once. It goes through
the text with a stack of the arrays and objects that are open.
-/

namespace OperandCodec
namespace Json

/-- What is open around the text that is passed over. -/
inductive Frame where
  | array
  | object
deriving DecidableEq, Repr

namespace Frame

/-- The bracket that closes a frame. -/
def closing : Frame → Char
  | array => ']'
  | object => '}'

/-- The error where the text ends inside a frame. -/
def unended : Frame → JsonError
  | array => .eofList
  | object => .eofObject

/-- The error where neither a comma nor the closing bracket follows a value. -/
def unseparated : Frame → JsonError
  | array => .expectedCommaOrBracket
  | object => .expectedCommaOrBrace

end Frame

/-- Passes over a run of digits, of which there has to be one. -/
def skipDigits (s : List Char) : Except JsonError (Rest s) :=
  match s with
  | [] => .error .invalidNumber
  | c :: cs =>
    if c.isDigit then
.ok ((Tail.dropWhile Char.isDigit cs).behind c)
    else .error .invalidNumber

/-- Passes over an exponent behind its letter. -/
def skipExponent (s : List Char) : Except JsonError (Rest s) :=
  match s with
  | '+' :: t => (skipDigits t).map (·.cons '+')
  | '-' :: t => (skipDigits t).map (·.cons '-')
  | t => skipDigits t

/-- Passes over an exponent, if one follows. -/
def skipExponent? (s : List Char) : Except JsonError (Tail s) :=
  match s with
  | c :: t =>
    if c = 'e' ∨ c = 'E' then (skipExponent t).map fun r => (r.cons c).toTail
    else .ok (.all (c :: t))
  | [] => .ok (.all [])

/-- Passes over a fraction and an exponent, as far as they follow. -/
def skipFraction? (s : List Char) : Except JsonError (Tail s) :=
  match s with
  | '.' :: t => do
    let r ← skipDigits t
    let u ← skipExponent? r.1
    return ((r.andThen u).cons '.').toTail
  | s => skipExponent? s

/-- Passes over a number behind its sign. -/
def skipNumber (s : List Char) : Except JsonError (Rest s) :=
  match s with
  | [] => .error .invalidNumber
  | c :: cs => do
    if c = '0' ∧ cs.head?.any Char.isDigit then throw .invalidNumber
    let r ← skipDigits (c :: cs)
    return r.andThen (← skipFraction? r.1)

/-- Passes over what stands behind a backslash; the character does not matter. -/
def skipEscape : Reader Char
  | [] => .error .eofString
  | c :: cs =>
    if c = 'u' then (hex4 cs).map fun (_, r) => (c, r.cons c)
    else if (escaped? c).isSome then .ok (c, (Tail.all cs).behind c)
    else .error .invalidEscape

/-- Passes over a string behind its opening quote. -/
def skipString (s : List Char) : Except JsonError (Rest s) :=
  (characters skipEscape s).map (·.2)

/-- Passes over a key and its colon. -/
def skipKey (s : List Char) : Except JsonError (Rest s) :=
  match skipSpace s with
  | ⟨[], _⟩ => .error .eofObject
  | ⟨'"' :: t, h⟩ => do
    let r ← skipString t
    match skipSpace r.1 with
    | ⟨[], _⟩ => throw .eofObject
    | ⟨':' :: u, h'⟩ =>
      return ⟨u, by have := r.2; simp only [List.length_cons] at h h'; omega⟩
    | _ => throw .expectedColon
  | _ => .error .keyNotString

/-- Passes over what precedes a value inside a frame: nothing in an array, a key in an object. -/
def skipLabel (f : Frame) (s : List Char) : Except JsonError (Tail s) :=
  match f with
  | .array => .ok (.all s)
  | .object => (skipKey s).map (·.toTail)

/-- The front of a value: all of a scalar, or the bracket of an array or an object. -/
inductive Front (s : List Char) where
  | scalar (r : Rest s)
  | opening (f : Frame) (r : Rest s)

/-- Passes over the front of a value. -/
def skipFront (s : List Char) : Except JsonError (Front s) :=
  match skipSpace s with
  | ⟨[], _⟩ => .error .eofValue
  | ⟨c :: cs, h⟩ =>
    let word (w : List Char) : Except JsonError (Front s) :=
      (keyword w cs).map fun r => .scalar (r.widen h)
    let rest (r : Rest cs) : Rest s := r.toTail.widen h
    match c with
    | 'n' => word ['u', 'l', 'l']
    | 't' => word ['r', 'u', 'e']
    | 'f' => word ['a', 'l', 's', 'e']
    | '"' => (skipString cs).map (.scalar ∘ rest)
    | '-' => (skipNumber cs).map (.scalar ∘ rest)
    | '[' => .ok (.opening .array ⟨cs, h⟩)
    | '{' => .ok (.opening .object ⟨cs, h⟩)
    | c =>
      if c.isDigit then (skipNumber (c :: cs)).map fun r => .scalar (r.widen h)
      else .error .expectedValue

mutual
/-- Passes over a value, and then over all that is open around it. -/
def skipValue (around : List Frame) (s : List Char) : Except JsonError (Rest s) := do
  match ← skipFront s with
  | .scalar r =>
    have := r.2
    let t ← skipBehind around r.1
    return r.andThen t
  | .opening f r =>
    match h : skipSpace r.1 with
    | ⟨[], _⟩ => throw f.unended
    | ⟨c :: cs, hc⟩ =>
      have := r.2
      if c = f.closing then
        have : cs.length < s.length := by simp only [List.length_cons] at hc; omega
        let t ← skipBehind around cs
        return ⟨t.1, Nat.lt_of_le_of_lt t.2 this⟩
      else
        let t ← skipLabel f r.1
        have := t.2
        let u ← skipValue (f :: around) t.1
        return ⟨u.1, by have := u.2; omega⟩
termination_by s.length

/-- Goes on behind a value, inside of what is open around it. -/
def skipBehind (around : List Frame) (s : List Char) : Except JsonError (Tail s) := do
  match around with
  | [] => return .all s
  | f :: fs =>
    match skipSpace s with
    | ⟨[], _⟩ => throw f.unended
    | ⟨c :: cs, hc⟩ =>
      have : cs.length < s.length := hc
      if c = ',' then
        let t ← skipLabel f cs
        have := t.2
        let u ← skipValue (f :: fs) t.1
        return ⟨u.1, by have := u.2; omega⟩
      else if c = f.closing then
        let t ← skipBehind fs cs
        return ⟨t.1, by have := t.2; omega⟩
      else throw f.unseparated
termination_by s.length
end

/-- Passes over one value. -/
def skip : Reader Unit := fun s =>
  (skipValue [] s).map fun r => ((), r)

end Json
end OperandCodec
