import OperandCodec.Record.Decode
/-!
# The fields of a record

Where a word is looked at when it is read, without a way of reading it. A
field is a bit range with what its content stands for: an argument, or the
count of a computed arity. A word can be wrong for a field in two ways
(`Field.Refuses`), and there is no other reason for which it is not read.
-/

namespace OperandCodec

/-- A bit range of the word, and what its content stands for. -/
structure Field where
  subject : Subject
  bits : BitRange
  computation : Option Computation

namespace Field

/-- The content of a field is put through its computation with this value. -/
def Holds (f : Field) (w : Word) (v : Value) : Prop :=
  Computation.applyOptional f.computation (w.unpack f.bits).toValue = .ok v

/-- Why a word is refused at a field, as the error that says so. -/
inductive Refuses (opcode : String) (w : Word) (f : Field) : Error → Prop where
  /-- The computation has a fault at the content of the field. -/
  | fault {c : Computation} {fault : Fault} : f.computation = some c →
      c.expr.eval (w.unpack f.bits).toValue = .error fault →
      Refuses opcode w f (.arithmetic c.source fault (some ⟨opcode, f.subject⟩))
  /-- The count of an arity is below zero. -/
  | negative {arity : Arity} {count : Value} : f.subject = .computed arity →
      f.Holds w count → count.toInt < 0 →
      Refuses opcode w f
        (.range (.negativeCount arity count (w.unpack f.bits)) (some ⟨opcode, f.subject⟩))

end Field

/-- The field of an argument. -/
def Argument.field (a : Argument) : Field :=
  ⟨.argument a.name, a.bits, a.computation⟩

/-- The field of computed inputs. -/
def Inputs.field? : Inputs → Option Field
  | computed bits c => some ⟨.computed .inputs, bits, c⟩
  | _ => none

/-- The field of computed outputs. -/
def Outputs.field? : Outputs → Option Field
  | computed bits c => some ⟨.computed .outputs, bits, c⟩
  | _ => none

/-- The fields in the order of reading: the arguments as declared, the inputs, the outputs. -/
def Record.fields (r : Record) : List Field :=
  r.arguments.map Argument.field ++ (r.inputs.field?.toList ++ r.outputs.field?.toList)

theorem Record.mem_fields {r : Record} {f : Field} : f ∈ r.fields ↔
    (∃ a ∈ r.arguments, a.field = f) ∨ f ∈ r.inputs.field? ∨ f ∈ r.outputs.field? := by
  rw [fields, List.mem_append, List.mem_append, List.mem_map, Option.mem_toList, Option.mem_toList]
  rfl

/-- Two words agree at the positions of every field. -/
def Record.AgreeOnFields (r : Record) (w w' : Word) : Prop :=
  ∀ f ∈ r.fields, ∀ i ∈ f.bits, w.getLsbD i = w'.getLsbD i

end OperandCodec
