import OperandCodec.Document.OfJson
import OperandCodec.Json.Parser
import OperandCodec.Json.Skip
/-!
# Documents straight from their text

Reads one document without building its JSON value first. Errors of shape
and of syntax come up in text order; a known key that is repeated is an
error before its second value is looked at, and the value of an unknown key
is passed over. The values of `operand`, `inputs` and `outputs` are read as
a whole before their shape is judged.
-/

namespace OperandCodec
namespace Document

open Json

/-- How many arrays and objects may be nested in a field. -/
def fieldLevels : Nat := maxLevels - 1

/-- The error of a value of the wrong type at the front of a text. -/
def wrongType (wanted : JsonWanted) (s : List Char) : JsonError :=
  match shapeOf s with
  | .ok got => .wrongType got wanted
  | .error e => e

/-- Reads a text. -/
def text : Reader String := fun s =>
  match skipSpace s with
  | ⟨'"' :: t, h⟩ => (stringBody t).widen (Nat.le_of_lt h)
  | _ => .error (wrongType .string s)

/-- Reads a list of texts. -/
def texts : Reader (List String) := fun s =>
  match skipSpace s with
  | ⟨'[' :: t, h⟩ => (elements text t).widen (Nat.le_of_lt h)
  | _ => .error (wrongType .sequence s)

/-- Reads a value of a union. -/
def variant {α : Type} (union : JsonUnion) (f : Json → Option α) : Reader α := fun s => do
  let (v, r) ← value fieldLevels s
  return (← ofUnion union f v, r)

/-- The reader of a field that is not known yet; what it reads becomes known. -/
def newField {α : Type} (key : String) (known : Option α) (read : Reader α)
    (set : α → PartialDocument) : Except JsonError (Reader PartialDocument) :=
  if known.isSome then .error (.duplicateField key)
  else .ok fun s => (read s).map fun (x, r) => (set x, r)

/-- Chooses the reader of a field by its key. -/
def visit : Visitor PartialDocument := fun d key =>
  match key with
  | "name" => newField key d.name text fun x => { d with name := x }
  | "desc" => newField key d.desc text fun x => { d with desc := x }
  | "operand" => newField key d.operand (variant .operand OperandDocument.ofJson?)
      fun x => { d with operand := x }
  | "inputs" => newField key d.inputs (variant .inputs InputsDocument.ofJson?)
      fun x => { d with inputs := x }
  | "outputs" => newField key d.outputs (variant .outputs OutputsDocument.ofJson?)
      fun x => { d with outputs := x }
  | "aliases" => newField key d.aliases texts fun x => { d with aliases := x }
  | _ => .ok fun s => (skip s).map fun ((), r) => (d, r)

/-! ## Documents written as arrays -/

/-- Where the reading of an array has come to: behind an element, or behind its end. -/
inductive Cursor where
  | inside (s : List Char)
  | ended (s : List Char)

/-- Reads the first element, if there is one. -/
def firstItem {α : Type} (read : Reader α) (s : List Char) :
    Except JsonError (Option α × Cursor) := do
  match ← firstSlot s with
  | .closed r => return (none, .ended r.1)
  | .element t =>
    let (x, r) ← read t.1
    return (some x, .inside r.1)

/-- Reads another element, if there is one. -/
def nextItem {α : Type} (read : Reader α) : Cursor → Except JsonError (Option α × Cursor)
  | .ended s => return (none, .ended s)
  | .inside s => do
    match ← nextSlot s with
    | .closed r => return (none, .ended r.1)
    | .element t =>
      let (x, r) ← read t.1
      return (some x, .inside r.1)

/-- An element that has to be there. -/
def requireSlot {α : Type} (index : Nat) : Option α → Except JsonError α
  | some x => .ok x
  | none => .error (.tooShort index)

/-- Reads the end of an array behind its last field. -/
def close : Cursor → Except JsonError (List Char)
  | .ended s => .ok s
  | .inside s =>
    match (skipSpace s).1 with
    | [] => .error .eofList
    | ']' :: r => .ok r
    | ',' :: t =>
      match (skipSpace t).1 with
      | ']' :: _ => .error .trailingComma
      | _ => .error .trailingCharacters
    | _ => .error .trailingCharacters

/-- Reads a document written as an array, behind its opening bracket. -/
def positional (s : List Char) : Except JsonError (Document × List Char) := do
  let (name, at') ← firstItem text s
  let name ← requireSlot 0 name
  let (desc, at') ← nextItem text at'
  let (operand, at') ← nextItem (variant .operand OperandDocument.ofJson?) at'
  let operand ← requireSlot 2 operand
  let (inputs, at') ← nextItem (variant .inputs InputsDocument.ofJson?) at'
  let inputs ← requireSlot 3 inputs
  let (outputs, at') ← nextItem (variant .outputs OutputsDocument.ofJson?) at'
  let outputs ← requireSlot 4 outputs
  let (aliases, at') ← nextItem texts at'
  let rest ← close at'
  return (⟨name, desc.getD "", operand, inputs, outputs, aliases.getD []⟩, rest)

/-- The document that a whole text holds. -/
def ofText (source : String) : Except JsonError Document := do
  let s := source.toList
  let (d, rest) ← match (skipSpace s).1 with
    | '{' :: t => do
      let (known, r) ← entries visit PartialDocument.empty t
      pure (← known.finish, r.1)
    | '[' :: t => positional t
    | _ => throw (wrongType .document s)
  Json.finish rest
  return d

end Document
end OperandCodec
