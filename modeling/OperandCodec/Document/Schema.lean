import OperandCodec.Json.Basic
import OperandCodec.Text.Numeral
/-!
# The schema of opcode documents

What the JSON value of a document looks like, without a way of reading it.
The schema is put together from records, whose members have keys and may be
left out where they are not required. A record is documented as an object;
the readers also take the array of its members in the order of the schema,
so what is said here is said for the one or for both (`RecordForm`).
-/

namespace OperandCodec

/-- How the records of a document are written. -/
inductive RecordForm where
  /-- As objects, which is what the schema documents. -/
  | objects
  /-- As objects, or as arrays of their members in the order of the schema. -/
  | objectsOrArrays
deriving DecidableEq, Repr

/-- A schema tells the JSON values that are allowed. -/
abbrev Schema := Json → Prop

namespace Schema

open Json

/-- A member of a record. -/
structure Member where
  key : String
  required : Bool
  schema : Schema

/-- What stands for a member: an allowed value, or nothing if the member is not required. -/
def Member.Admits (m : Member) : Option Json → Prop
  | some v => m.schema v
  | none => m.required = false

/-! ## Ways of putting schemas together -/

def text : Schema := fun v => ∃ s, v = .string s

def truth : Schema := fun v => ∃ b, v = .bool b

/-- An integer from zero to `max`. -/
def natural (max : Nat) : Schema := fun v => ∃ n : Nat, n ≤ max ∧ v = .number (.integer n)

def zero : Schema := natural 0

def list (item : Schema) : Schema := fun v => ∃ items, v = .array items ∧ ∀ x ∈ items, item x

def pair (item : Schema) : Schema := fun v => ∃ x y, v = .array [x, y] ∧ item x ∧ item y

def nullable (schema : Schema) : Schema := fun v => v = .null ∨ schema v

def either (a b : Schema) : Schema := fun v => a v ∨ b v

/-- A record. Keys that are none of its members' are ignored. -/
inductive record (form : RecordForm) (members : List Member) : Schema where
  | object {fields : List (String × Json)} : (∀ m ∈ members, m.Admits (field? m.key fields)) →
      record form members (.object fields)
  | array {items : List Json} : form = .objectsOrArrays → items.length ≤ members.length →
      (∀ i (h : i < members.length), members[i].Admits items[i]?) →
      record form members (.array items)

/-! ## The schema -/

/-- Two positions, which need not be positions of a word yet. -/
def bits : Schema := pair (natural 255)

def argument (form : RecordForm) : Schema :=
  record form [⟨"bits", true, bits⟩, ⟨"name", true, text⟩, ⟨"desc", false, nullable text⟩,
    ⟨"computation", false, nullable text⟩,
    ⟨"validRange", false, nullable (list (list (natural Text.maxCount)))⟩]

/-- Zero, or the arguments. -/
def operand (form : RecordForm) : Schema :=
  either zero (list (argument form))

def parameter (form : RecordForm) : Schema :=
  record form [⟨"name", true, text⟩, ⟨"desc", false, nullable text⟩, ⟨"spread", false, truth⟩]

/-- Zero, or the parameters and what the number of inputs is computed from. -/
def inputs (form : RecordForm) : Schema :=
  either zero (record form [⟨"parameters", false, list (parameter form)⟩,
    ⟨"bits", false, nullable bits⟩, ⟨"computation", false, nullable text⟩])

/-- The number of outputs, or what it is computed from. -/
def outputs (form : RecordForm) : Schema :=
  either (natural Text.maxCount)
    (record form [⟨"bits", false, nullable bits⟩, ⟨"computation", false, nullable text⟩])

def documentMembers (form : RecordForm) : List Member :=
  [⟨"name", true, text⟩, ⟨"desc", false, text⟩, ⟨"operand", true, operand form⟩,
    ⟨"inputs", true, inputs form⟩, ⟨"outputs", true, outputs form⟩, ⟨"aliases", false, list text⟩]

def document (form : RecordForm) : Schema :=
  record form (documentMembers form)

end Schema
end OperandCodec
