import OperandCodec.Document.OfJson
/-!
# Fields of a document

The keys of an opcode, and what a single field tells of one: how a document
of which some fields are known goes on with another field.
-/

namespace OperandCodec

/-- The keys of an opcode. -/
def Document.fieldNames : List String :=
  ["name", "desc", "operand", "inputs", "outputs", "aliases"]

namespace PartialDocument

/-- A field that is not known yet becomes known. -/
def learnField {α : Type} (key : String) (known : Option α) (f : Json → Except JsonError α)
    (set : α → PartialDocument) (v : Json) : Except JsonError PartialDocument :=
  if known.isSome then .error (.duplicateField key) else (f v).map set

/-- A document with one more field; unknown keys tell nothing. -/
def learn (d : PartialDocument) (field : String × Json) : Except JsonError PartialDocument :=
  match field.1 with
  | "name" => learnField "name" d.name stringOfJson (fun x => { d with name := x }) field.2
  | "desc" => learnField "desc" d.desc stringOfJson (fun x => { d with desc := x }) field.2
  | "operand" => learnField "operand" d.operand (ofUnion .operand OperandDocument.ofJson?)
      (fun x => { d with operand := x }) field.2
  | "inputs" => learnField "inputs" d.inputs (ofUnion .inputs InputsDocument.ofJson?)
      (fun x => { d with inputs := x }) field.2
  | "outputs" => learnField "outputs" d.outputs (ofUnion .outputs OutputsDocument.ofJson?)
      (fun x => { d with outputs := x }) field.2
  | "aliases" => learnField "aliases" d.aliases stringsOfJson (fun x => { d with aliases := x })
      field.2
  | _ => .ok d

end PartialDocument
end OperandCodec
