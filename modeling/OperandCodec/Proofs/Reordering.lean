import Mathlib.Tactic.Common
import OperandCodec.Proofs.DeclaredBits
import OperandCodec.Proofs.RoundTrip
/-!
# The order of declaration

Checking, building and reading go through the arguments in the order in
which they are declared. What they come to is said without that order:
being apart is mutual, a built word is told by what each argument admits,
and the values are sorted by name. So another order makes another choice
among several errors and another order of the values when they are
rendered, and no other difference (`reordered_encodes_alike`).
-/

namespace OperandCodec

/-- The same opcode with its arguments declared in another order. -/
structure Record.Reorders (r r' : Record) : Prop where
  name : r'.name = r.name
  aliases : r'.aliases = r.aliases
  arguments : r'.arguments.Perm r.arguments
  inputs : r'.inputs = r.inputs
  outputs : r'.outputs = r.outputs

/-- Two records that encode and decode alike: only which of several errors is reported, and the
order in which values are rendered, may differ. -/
structure Record.EncodesAlike (r r' : Record) : Prop where
  build : ∀ args n w, afresh (r'.build args n) = .ok w ↔ afresh (r.build args n) = .ok w
  /-- An error in building is the one of an argument, whatever is packed before it. -/
  refused : ∀ args n e, afresh (r'.build args n) = .error e →
    ∃ a ∈ r.arguments, ∀ w, afresh (a.packInto r.name args n w) = .error e
  read : ∀ w d, r'.read w = .ok d ↔ r.read w = .ok d
  /-- An error in reading is the one of a field. -/
  unread : ∀ w e, r'.read w = .error e → ∃ f ∈ r.fields, f.Refuses r.name w e
  /-- The values rendered are the same up to their order. -/
  render : ∀ w d, r.read w = .ok d → (r'.shown d).Perm (r.shown d) ∧
    r.render w = .ok (rendered r.name (r.shown d)) ∧
      r'.render w = .ok (rendered r.name (r'.shown d))

namespace Record.Reorders

variable {r r' : Record} {args : Assignment} {n : Nat} {w : Word} {e : Error}

theorem symm (h : r.Reorders r') : r'.Reorders r :=
  ⟨h.name.symm, h.aliases.symm, h.arguments.symm, h.inputs.symm, h.outputs.symm⟩

/-- **A record stays valid in another order.** -/
theorem valid (h : r.Reorders r') (hr : r.Valid) : r'.Valid where
  names := by
    rw [names, h.name, h.aliases]
    exact hr.names
  arguments a ha := hr.arguments a (h.arguments.mem_iff.1 ha)
  apart := (h.arguments.pairwise_iff Argument.Apart.symm).2 hr.apart
  inputs := h.inputs ▸ hr.inputs
  outputs := h.outputs ▸ hr.outputs

/-- **The same word is built.** -/
theorem build_eq_ok_iff (h : r.Reorders r') (hr : r.Valid) :
    afresh (r'.build args n) = .ok w ↔ afresh (r.build args n) = .ok w := by
  rw [Record.build_eq_ok_iff hr.apart, Record.build_eq_ok_iff (h.valid hr).apart]
  simp only [h.arguments.mem_iff]

/-- Building in another order fails with the error of some argument. -/
theorem exists_refused (h : r.Reorders r') (he : afresh (r'.build args n) = .error e) :
    ∃ a ∈ r.arguments, ∀ w, afresh (a.packInto r.name args n w) = .error e := by
  obtain ⟨a, ha, hae⟩ := (build_eq_error_iff.1 he).exists_mem
  rw [h.name] at hae
  exact ⟨a, h.arguments.mem_iff.1 ha, fun w => (Argument.packInto_eq_error_congr w 0).2 hae⟩

/-- What is read in one order is read in the other: the same values come in another order, which
sorting them by name does away with. -/
theorem read_eq_ok (h : r.Reorders r') (hr : r.Valid) {d : Decoded} (hd : r.read w = .ok d) :
    r'.read w = .ok d := by
  have hvalues := hd
  rw [read, bind_eq_ok_iff] at hvalues
  obtain ⟨vs, hvs, -⟩ := hvalues
  obtain ⟨vs', hvs', hperm⟩ := List.perm_comp_forall₂ h.arguments (values_eq_ok_iff.1 hvs)
  have hnodup : (vs.map (·.1)).Nodup := by
    rw [names_of_values hvs]
    exact hr.nodup_names
  rw [read_of_values (values_eq_ok_iff.2 hvs'), h.name, h.inputs, h.outputs,
    ← sortByName_eq_of_perm hperm.symm hnodup, ← read_of_values hvs]
  exact hd

/-- **The same is read.** -/
theorem read_eq_ok_iff (h : r.Reorders r') (hr : r.Valid) {d : Decoded} :
    r'.read w = .ok d ↔ r.read w = .ok d :=
  ⟨h.symm.read_eq_ok (h.valid hr), h.read_eq_ok hr⟩

theorem mem_fields_iff (h : r.Reorders r') {f : Field} : f ∈ r'.fields ↔ f ∈ r.fields := by
  simp only [mem_fields, h.inputs, h.outputs, h.arguments.mem_iff]

/-- Reading in another order fails with what some field objects to. -/
theorem exists_unread (h : r.Reorders r') (he : r'.read w = .error e) :
    ∃ f ∈ r.fields, f.Refuses r.name w e := by
  obtain ⟨f, hf, hfe⟩ := (read_eq_error_iff.1 he).exists_mem
  rw [h.name] at hfe
  exact ⟨f, h.mem_fields_iff.1 hf, hfe⟩

/-- The same values are shown, in another order. -/
theorem shown_perm (h : r.Reorders r') (d : Decoded) : (r'.shown d).Perm (r.shown d) :=
  (h.arguments.filter _).filterMap _

end Record.Reorders

/-- **The order of declaration is irrelevant to the encoding.** -/
theorem reordered_encodes_alike (op : Opcode) (r : Record) (h : op.Reorders r) :
    r.flaw? = none ∧ op.EncodesAlike r := by
  refine ⟨Record.flaw?_eq_none_iff.2 (h.valid op.valid), ?_⟩
  exact {
    build := fun args n w => h.build_eq_ok_iff op.valid
    refused := fun args n e => h.exists_refused
    read := fun w d => h.read_eq_ok_iff op.valid
    unread := fun w e => h.exists_unread
    render := fun w d hd => by
      refine ⟨h.shown_perm d, Record.render_of_read hd, ?_⟩
      rw [Record.render_of_read (h.read_eq_ok op.valid hd), h.name] }

/-- The halving opcode with its arguments declared the other way round. -/
def halvingReversed : Record :=
  { halvingOpcode.toRecord with operand := .arguments halvingOpcode.arguments.reverse }

theorem reordered_encodes_alike_of_halving :
    halvingOpcode.Reorders halvingReversed ∧ halvingReversed.flaw? = none ∧
      halvingOpcode.EncodesAlike halvingReversed ∧
        afresh (halvingReversed.build (.ofPairs [("half", 3)]) 5) = .ok 0x56 := by
  have hreorders : halvingOpcode.Reorders halvingReversed :=
    ⟨rfl, rfl, List.reverse_perm _, rfl, rfl⟩
  obtain ⟨hvalid, halike⟩ := reordered_encodes_alike halvingOpcode halvingReversed hreorders
  refine ⟨hreorders, hvalid, halike, (halike.build _ _ _).2 ?_⟩
  decide

end OperandCodec
