import OperandCodec.Document.Basic
import OperandCodec.Json.Error
import OperandCodec.Text.Numeral
/-!
# Documents from JSON values

The schema of opcode documents. A structure is written as an object, of
which unknown keys are ignored, or as an array of its fields in order, of
which the last ones may be left out where they have defaults. Within
`operand`, `inputs` and `outputs` any mismatch has the same error; the
other fields say what they found. The fields of an opcode are looked at in
the order of their keys, and missing ones are reported last, in the order
of the schema.
-/

namespace OperandCodec
namespace Json

/-- A text. -/
def asString? : Json → Option String
  | string s => some s
  | _ => none

/-- A truth value. -/
def asBool? : Json → Option Bool
  | bool b => some b
  | _ => none

/-- A natural number up to `max`, written as an integer. -/
def asNat? (max : Nat) : Json → Option Nat
  | number (.integer n) => if 0 ≤ n ∧ n ≤ max then some n.toNat else none
  | _ => none

/-- A list. -/
def asList? {α : Type} (item : Json → Option α) : Json → Option (List α)
  | array items => items.mapM item
  | _ => none

/-- A pair of small naturals. -/
def asPair? : Json → Option (Nat × Nat)
  | array [a, b] => do return (← a.asNat? 255, ← b.asNat? 255)
  | _ => none

/-- A value that may be absent or null. -/
def asOptional? {α : Type} (f : Json → Option α) : Option Json → Option (Option α)
  | none | some null => some none
  | some v => (f v).map some

/-- A value that has a default where it is absent. -/
def asDefault? {α : Type} (default : α) (f : Json → Option α) : Option Json → Option α
  | none => some default
  | some v => f v

/-- The values of a structure's fields: by key in an object, which may not repeat one of them, or by
position in an array. -/
def fields? (keys : List String) : Json → Option (List (Option Json))
  | object fs => keys.mapM fun k =>
    match fs.filter (·.1 == k) with
    | [] => some none
    | [f] => some (some f.2)
    | _ => none
  | array items =>
    if items.length ≤ keys.length then
      some (items.map some ++ List.replicate (keys.length - items.length) none)
    else none
  | _ => none

end Json

open Json

/-- An argument from its JSON value. -/
def ArgumentDocument.ofJson? (v : Json) : Option ArgumentDocument := do
  match ← v.fields? ["bits", "name", "desc", "computation", "validRange"] with
  | [bits, name, desc, computation, validRange] =>
    return {
      bits := ← (← bits).asPair?
      name := ← (← name).asString?
      desc := ← asOptional? asString? desc
      computation := ← asOptional? asString? computation
      validRange := ← asOptional? (asList? (asList? (asNat? Text.maxCount))) validRange }
  | _ => none

/-- The sentinel zero. -/
def isSentinel (v : Json) : Bool :=
  v.asNat? 0 == some 0

/-- An operand from its JSON value. -/
def OperandDocument.ofJson? (v : Json) : Option OperandDocument :=
  if isSentinel v then some .zero else (asList? ArgumentDocument.ofJson? v).map .arguments

/-- A parameter from its JSON value. -/
def ParameterDocument.ofJson? (v : Json) : Option ParameterDocument := do
  match ← v.fields? ["name", "desc", "spread"] with
  | [name, desc, spread] =>
    return {
      name := ← (← name).asString?
      desc := ← asOptional? asString? desc
      spread := ← asDefault? false asBool? spread }
  | _ => none

/-- Inputs from their JSON value. -/
def InputsDocument.ofJson? (v : Json) : Option InputsDocument := do
  if isSentinel v then return .zero
  match ← v.fields? ["parameters", "bits", "computation"] with
  | [params, bits, computation] =>
    return .declared (← asDefault? [] (asList? ParameterDocument.ofJson?) params)
      (← asOptional? asPair? bits) (← asOptional? asString? computation)
  | _ => none

/-- Outputs from their JSON value. -/
def OutputsDocument.ofJson? (v : Json) : Option OutputsDocument := do
  if let some n := v.asNat? Text.maxCount then return .count n
  match ← v.fields? ["bits", "computation"] with
  | [bits, computation] =>
    return .declared (← asOptional? asPair? bits) (← asOptional? asString? computation)
  | _ => none

/-! ## The fields of an opcode -/

/-- A value of a union, or the error of the union. -/
def ofUnion {α : Type} (union : JsonUnion) (f : Json → Option α) (v : Json) :
    Except JsonError α :=
  match f v with
  | some x => .ok x
  | none => .error (.noVariant union)

/-- A text, or what was found instead. -/
def stringOfJson : Json → Except JsonError String
  | .string s => .ok s
  | v => .error (.wrongType v.shape .string)

/-- A list of texts, or what was found instead. -/
def stringsOfJson : Json → Except JsonError (List String)
  | .array items => items.mapM stringOfJson
  | v => .error (.wrongType v.shape .sequence)

/-- A document of which some fields are known. -/
structure PartialDocument where
  name : Option String
  desc : Option String
  operand : Option OperandDocument
  inputs : Option InputsDocument
  outputs : Option OutputsDocument
  aliases : Option (List String)
deriving DecidableEq, Repr

namespace PartialDocument

/-- The document of which nothing is known. -/
def empty : PartialDocument :=
  ⟨none, none, none, none, none, none⟩

/-- A field that has to be there. -/
def require {α : Type} (name : String) : Option α → Except JsonError α
  | some x => .ok x
  | none => .error (.missingField name)

/-- The document with its defaults, or the first field that is missing. -/
def finish (d : PartialDocument) : Except JsonError Document := do
  let name ← require "name" d.name
  let operand ← require "operand" d.operand
  let inputs ← require "inputs" d.inputs
  let outputs ← require "outputs" d.outputs
  return ⟨name, d.desc.getD "", operand, inputs, outputs, d.aliases.getD []⟩

end PartialDocument

/-- A field of an object, if it is there. -/
def readField {α : Type} (key : String) (f : Json → Except JsonError α)
    (fields : List (String × Json)) : Except JsonError (Option α) :=
  (field? key fields).mapM f

/-- A field of an array, of which the array may end before it. -/
def readItem {α : Type} (index : Nat) (f : Json → Except JsonError α)
    (items : List Json) : Except JsonError (Option α) :=
  items[index]?.mapM f

/-- A field of an array that has to be there. -/
def requireItem {α : Type} (index : Nat) (f : Json → Except JsonError α)
    (items : List Json) : Except JsonError α := do
  let some x ← readItem index f items | throw (.tooShort index)
  return x

/-- A document from a JSON value that repeats no key. -/
def Document.ofJson (v : Json) : Except JsonError Document := do
  match v with
  | .object fields =>
    let aliases ← readField "aliases" stringsOfJson fields
    let desc ← readField "desc" stringOfJson fields
    let inputs ← readField "inputs" (ofUnion .inputs InputsDocument.ofJson?) fields
    let name ← readField "name" stringOfJson fields
    let operand ← readField "operand" (ofUnion .operand OperandDocument.ofJson?) fields
    let outputs ← readField "outputs" (ofUnion .outputs OutputsDocument.ofJson?) fields
    PartialDocument.finish ⟨name, desc, operand, inputs, outputs, aliases⟩
  | .array items =>
    let name ← requireItem 0 stringOfJson items
    let desc ← readItem 1 stringOfJson items
    let operand ← requireItem 2 (ofUnion .operand OperandDocument.ofJson?) items
    let inputs ← requireItem 3 (ofUnion .inputs InputsDocument.ofJson?) items
    let outputs ← requireItem 4 (ofUnion .outputs OutputsDocument.ofJson?) items
    let aliases ← readItem 5 stringsOfJson items
    if 6 < items.length then throw (.tooLong items.length)
    return ⟨name, desc.getD "", operand, inputs, outputs, aliases.getD []⟩
  | v => throw (.wrongType v.shape .document)

/-- The name by which an error calls a JSON value that is no document. -/
def Document.nameOf : Json → String
  | .object fields => ((field? "name" fields).bind asString?).getD "<unnamed>"
  | _ => "<unnamed>"

end OperandCodec
