import Mathlib.Init
import OperandCodec.Table
/-!
# The index of a table

A table in the course of being built: opcodes in slots, and for each name
the slot that it stands for. The names of an opcode are entered before the
opcode has its slot, so for that while they stand for the slot behind the
last one.
-/

namespace OperandCodec

/-- Opcodes in slots, and the slots of names. -/
structure TableIndex where
  opcodes : Array Opcode
  slots : Std.HashMap String Nat

namespace TableIndex

/-- The index of no opcodes. -/
def empty : TableIndex :=
  ⟨#[], ∅⟩

/-- The opcode of a name or alias. -/
def get? (t : TableIndex) (name : String) : Option Opcode :=
  t.slots[name]?.bind (t.opcodes[·]?)

/-- Enters a name of an opcode that is about to have the next slot. The owner of a name that is
entered already is looked up in its slot, which has none if the name is the opcode's own. -/
def enter (op : Opcode) (t : TableIndex) (name : String) : Except TableError TableIndex :=
  match t.slots[name]? with
  | none => .ok { t with slots := t.slots.insert name t.opcodes.size }
  | some slot =>
    match t.opcodes[slot]? with
    | some owner => .error (.refused (.invalidMetadata op.name (.nameTaken name owner.name)))
    | none => .error (.repeatedName op.name name)

/-- Enters the names of an opcode, then the opcode. -/
def add (t : TableIndex) (op : Opcode) : Except TableError TableIndex := do
  let t ← op.names.foldlM (enter op) t
  return { t with opcodes := t.opcodes.push op }

/-- The index of a list of opcodes. -/
def ofOpcodes (ops : List Opcode) : Except TableError TableIndex :=
  ops.foldlM add empty

end TableIndex
end OperandCodec
