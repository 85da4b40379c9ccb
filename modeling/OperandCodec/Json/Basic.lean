import OperandCodec.Decimal.Binary64
import OperandCodec.Decimal.Shortest
import OperandCodec.Text.Quoted
/-!
# JSON values

Values as they stand in a text: the fields of an object are a list in text
order, and a key may occur in it more than once. `Json.lastWins` keeps of
each repeated key the last field, at every depth.
-/

namespace OperandCodec

/-- A number: an integer written without point or exponent, or a rounded real with its sign. -/
inductive JsonNumber where
  | integer (n : Int)
  | real (negative : Bool) (x : Binary64)
deriving DecidableEq, Repr

/-- A JSON value. -/
inductive Json where
  | null
  | bool (b : Bool)
  | number (n : JsonNumber)
  | string (s : String)
  | array (items : List Json)
  | object (fields : List (String × Json))

/-- What a message says about a value that has the wrong type. -/
inductive JsonShape where
  | null
  | bool (b : Bool)
  | number (n : JsonNumber)
  | string (s : String)
  | sequence
  | map
deriving DecidableEq, Repr

/-- Reals have at least one digit behind the point up to sixteen digits before it and up to four
zeros behind it, and an exponent beyond. -/
def JsonNumber.style : Decimal.Style :=
  ⟨-5, 15⟩

/-- The wording of a number. -/
def JsonNumber.describe : JsonNumber → String
  | integer n => s!"integer `{n}`"
  | real negative x =>
    let (digits, e) := Decimal.shortest x
    "floating point `" ++ (if negative then "-" else "") ++ style.text digits e ++ "`"

/-- The wording of a shape. -/
def JsonShape.describe : JsonShape → String
  | null => "null"
  | bool b => s!"boolean `{b}`"
  | number n => n.describe
  | string s => "string " ++ Text.quoted s
  | sequence => "sequence"
  | map => "map"

namespace Json

/-- The shape of a value. -/
def shape : Json → JsonShape
  | null => .null
  | bool b => .bool b
  | number n => .number n
  | string s => .string s
  | array _ => .sequence
  | object _ => .map

mutual
/-- The value in which the last of repeated keys wins. -/
def lastWins : Json → Json
  | array items => array (lastWinsItems items)
  | object fields => object (lastWinsFields fields)
  | v => v

/-- The items of an array, each with its last keys. -/
def lastWinsItems : List Json → List Json
  | [] => []
  | v :: vs => v.lastWins :: lastWinsItems vs

/-- The fields of an object that no later field replaces. -/
def lastWinsFields : List (String × Json) → List (String × Json)
  | [] => []
  | (k, v) :: fs =>
    if fs.any (·.1 == k) then lastWinsFields fs else (k, v.lastWins) :: lastWinsFields fs
end

/-- The value of a key; the first one, where a key is repeated. -/
def field? (key : String) (fields : List (String × Json)) : Option Json :=
  (fields.find? (·.1 == key)).map (·.2)

end Json
end OperandCodec
