import OperandCodec.Document.Convert
import OperandCodec.Document.Reader
/-!
# Opcode tables

Opcodes in document order, looked up by primary name or alias. No two
opcodes of a table share a name, and no opcode lists one of its own names
twice; the first name that breaks this, in list order, is the table's
conflict. A table is loaded from a text that holds one opcode or an array
of them, all or nothing.
-/

namespace OperandCodec

/-- The opcode in a text that holds one document. -/
def Opcode.ofText {m : Type → Type} [Monad m] [MonadComputation m] (text : String) :
    ExceptT Error m Opcode := do
  let d ← MonadExcept.ofExcept <|
    (Document.ofText text).mapError fun e => .invalidMetadata "<document>" (.unreadable e)
  d.convert

/-- A name that occurs twice. -/
inductive Conflict where
  /-- A name of `opcode` that an opcode before it, `owner`, has taken. -/
  | taken (opcode name owner : String)
  /-- A name that `opcode` lists twice itself. -/
  | repeated (opcode name : String)
deriving DecidableEq, Repr

/-- The opcode that has a name. -/
def findOpcode? (ops : List Opcode) (name : String) : Option Opcode :=
  ops.find? fun op => op.names.contains name

/-- The first conflict in the names of an opcode: with opcodes before it, or with its own names
before. -/
def Opcode.conflict? (earlier : List Opcode) (op : Opcode) : (seen names : List String) →
    Option Conflict
  | _, [] => none
  | seen, name :: names =>
    match findOpcode? earlier name with
    | some owner => some (.taken op.name name owner.name)
    | none =>
      if seen.contains name then some (.repeated op.name name)
      else conflict? earlier op (name :: seen) names

/-- The first conflict in a list of opcodes behind others. -/
def firstConflict? (earlier : List Opcode) : List Opcode → Option Conflict
  | [] => none
  | op :: ops => op.conflict? earlier [] op.names <|> firstConflict? (earlier ++ [op]) ops

/-- Opcodes without a conflict. -/
structure OpcodeTable where
  opcodes : List Opcode
  consistent : firstConflict? [] opcodes = none

/-- Why a table is not loaded. -/
inductive TableError where
  | refused (e : Error)
  /-- An opcode lists a name twice, which a table has no room for. -/
  | repeatedName (opcode name : String)
deriving DecidableEq, Repr

namespace OpcodeTable

/-- The table of a list of opcodes. -/
def ofOpcodes (ops : List Opcode) : Except TableError OpcodeTable :=
  match h : firstConflict? [] ops with
  | none => .ok ⟨ops, h⟩
  | some (.taken opcode name owner) =>
    .error (.refused (.invalidMetadata opcode (.nameTaken name owner)))
  | some (.repeated opcode name) => .error (.repeatedName opcode name)

/-- The opcode of a name or alias. -/
def get? (t : OpcodeTable) (name : String) : Option Opcode :=
  findOpcode? t.opcodes name

/-- The number of opcodes. -/
def size (t : OpcodeTable) : Nat :=
  t.opcodes.length

/-- A document from one item of a text. -/
def documentOfItem (v : Json) : Except Error Document :=
  (Document.ofJson v).mapError fun e => .invalidMetadata (Document.nameOf v) (.unreadable e)

/-- The documents in a text: the items of an array, or one value. -/
def documentsOfText (text : String) : Except Error (List Document) := do
  let v ← (Json.ofText text).mapError fun e => .invalidMetadata "<document>" (.unreadable e)
  match v.lastWins with
  | .array items => items.mapM documentOfItem
  | v => return [← documentOfItem v]

variable {m : Type → Type} [Monad m] [MonadComputation m]

/-- The opcodes that a text holds. -/
def opcodesOfText (text : String) : ExceptT Error m (List Opcode) := do
  let docs ← MonadExcept.ofExcept (documentsOfText text)
  docs.mapM (·.convert)

/-- The table of the opcodes that some loading gives. -/
def load (opcodes : ExceptT Error m (List Opcode)) : ExceptT TableError m OpcodeTable := do
  let ops ← ExceptT.adapt TableError.refused opcodes
  MonadExcept.ofExcept (ofOpcodes ops)

/-- The table that a text holds. -/
def ofText (text : String) : ExceptT TableError m OpcodeTable :=
  load (opcodesOfText text)

/-- The table of texts that hold one document each. -/
def ofDocumentTexts (texts : List String) : ExceptT TableError m OpcodeTable :=
  load (texts.mapM Opcode.ofText)

end OpcodeTable
end OperandCodec
