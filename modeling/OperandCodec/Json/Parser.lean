import OperandCodec.Json.Number
/-!
# Values

The reader of JSON values. Arrays and objects may be nested up to
`maxLevels` deep; the bracket that opens one more is refused before what it
holds is looked at. `shapeOf` says what kind of value stands at the front
of a text where the schema asks for another one: a scalar is read for it, an
array or an object is not.
-/

namespace OperandCodec
namespace Json

/-- How many arrays and objects may enclose a value. -/
def maxLevels : Nat := 127

/-- Collects the fields of an object, each read by `value`. -/
def collect (value : Reader Json) : Visitor (List (String × Json)) := fun fields key =>
  .ok fun s => (value s).map fun (v, r) => (fields ++ [(key, v)], r)

/-- A keyword that stands for a value, behind its first letter. -/
def constant (v : Json) (word : List Char) (s : List Char) : Except JsonError (Json × Tail s) :=
  (keyword word s).map fun r => (v, r)

/-- Reads a value; `inner` reads what arrays and objects hold, where they may still be opened. -/
def valueWith (inner : Option (Reader Json)) : Reader Json := fun s =>
  match skipSpace s with
  | ⟨[], _⟩ => .error .eofValue
  | ⟨c :: cs, h⟩ =>
    let closed : Except JsonError (Json × Tail cs) → Outcome Json s := fun o =>
      o.map fun (v, r) => (v, r.widen h)
    let behind : Outcome Json cs → Outcome Json s := fun o => o.widen (Nat.le_of_lt h)
    match c with
    | 'n' => closed (constant .null ['u', 'l', 'l'] cs)
    | 't' => closed (constant (.bool true) ['r', 'u', 'e'] cs)
    | 'f' => closed (constant (.bool false) ['a', 'l', 's', 'e'] cs)
    | '"' => behind ((stringBody cs).map fun (x, r) => (.string x, r))
    | '[' => match inner with
      | none => .error .tooDeep
      | some value => behind ((elements value cs).map fun (xs, r) => (.array xs, r))
    | '{' => match inner with
      | none => .error .tooDeep
      | some value => behind ((entries (collect value) [] cs).map fun (fs, r) => (.object fs, r))
    | c =>
      if c = '-' ∨ c.isDigit then
        let numeral : Outcome Json (c :: cs) := (numeral (c :: cs)).map fun (n, r) => (.number n, r)
        numeral.widen h
      else .error .expectedValue

/-- Reads a value in which that many arrays and objects may be nested. -/
def value : (levels : Nat) → Reader Json
  | 0 => valueWith none
  | n + 1 => valueWith (some (value n))

/-- The shape of the value at the front of a text. -/
def shapeOf (s : List Char) : Except JsonError JsonShape :=
  match (skipSpace s).1 with
  | '[' :: _ => .ok .sequence
  | '{' :: _ => .ok .map
  | _ => (value 0 s).map fun (v, _) => v.shape

/-- Refuses anything but space behind a value. -/
def finish (s : List Char) : Except JsonError Unit :=
  if (skipSpace s).1.isEmpty then .ok () else .error .trailingCharacters

/-- The value that a whole text holds. -/
def ofText (text : String) : Except JsonError Json := do
  let (v, r) ← value maxLevels text.toList
  finish r.1
  return v

end Json
end OperandCodec
