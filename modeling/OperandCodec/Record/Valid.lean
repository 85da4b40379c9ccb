import OperandCodec.Record.Check
/-!
# Valid records

What the constraints on a record say, without an order in which they are
looked at: names are well formed, argument names differ, no position
belongs to two arguments, computations are written over the variable that
fits their place, and valid ranges permit something. The check of records
(`Record.flaw?`) reports the first violation; this is what it looks for.
-/

namespace OperandCodec

/-- A computation is written over the variable that fits its place. -/
def IsOver (v : Variable) (c : Option Computation) : Prop :=
  ∀ x ∈ c, x.var = v

/-- An entry whose bounds are in order. -/
def RangeEntry.IsOrdered : RangeEntry → Prop
  | exact _ => True
  | interval lo hi => lo.toNat ≤ hi.toNat

/-- A valid range with entries, all of them in order. -/
structure ValidRange.Valid (r : ValidRange) : Prop where
  ne_nil : r.entries ≠ []
  ordered : ∀ e ∈ r.entries, e.IsOrdered

/-- An argument that is valid by itself. -/
structure Argument.Valid (a : Argument) : Prop where
  name : isArgumentName a.name
  computation : IsOver .arg a.computation
  validRange : ∀ r ∈ a.validRange, r.Valid

/-- Two argument names that differ, and two bit ranges without a common position. -/
structure Argument.Apart (a b : Argument) : Prop where
  name : a.name ≠ b.name
  bits : ∀ i, i ∈ a.bits → i ∉ b.bits

/-- Inputs that are valid: parameters have names, and only the last may be spread. -/
def Inputs.Valid : Inputs → Prop
  | zero => True
  | fixed params =>
    (∀ p ∈ params, isArgumentName p.name) ∧ ∀ p ∈ params.dropLast, p.spread = false
  | computed _ c => IsOver .bits c

/-- Outputs that are valid. -/
def Outputs.Valid : Outputs → Prop
  | fixed _ => True
  | computed _ c => IsOver .bits c

/-- A record that satisfies all constraints. -/
structure Record.Valid (r : Record) : Prop where
  names : ∀ n ∈ r.names, isOpcodeName n
  arguments : ∀ a ∈ r.arguments, a.Valid
  apart : r.arguments.Pairwise Argument.Apart
  inputs : r.inputs.Valid
  outputs : r.outputs.Valid

theorem RangeEntry.isInverted_eq_false_iff {e : RangeEntry} :
    e.isInverted = false ↔ e.IsOrdered := by
  cases e <;> simp [isInverted, IsOrdered]

end OperandCodec
