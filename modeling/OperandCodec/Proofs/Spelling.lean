import OperandCodec.Proofs.Conversion
/-!
# Documents and opcodes describe the same

Every opcode can be written as a document, field by field, and is found
again in it; and whatever document an opcode came from, the document that
spells it out is the normal form of that document
(`documents_spell_out_opcodes`). So nothing is lost in an opcode but what
the normal form leaves out, and nothing valid is out of a document's reach.
What is written cannot be taken for blank, since a source of blanks has no
tree.
-/

namespace OperandCodec

/-! ## Spelled out documents are normal -/

theorem CompiledOver.written?_source {v : Variable} {c : Option Computation}
    (h : CompiledOver v c) : written? (c.map (·.source)) = c.map (·.source) := by
  cases c with
  | none => rfl
  | some c => exact (h.2 c rfl).written?_source

theorem ArgumentDocument.normal_ofArgument {a : Argument} (h : CompiledOver .arg a.computation) :
    (ofArgument a).normal = ofArgument a := by
  rw [normal, ofArgument, h.written?_source]

theorem OperandDocument.normal_ofOperand {o : Operand} (h : o.Compiled) :
    (ofOperand o).normal = ofOperand o := by
  cases o with
  | zero => rfl
  | arguments args =>
    rw [ofOperand, normal, List.map_map]
    exact congrArg _ (List.map_congr_left fun a ha => ArgumentDocument.normal_ofArgument (h a ha))

theorem InputsDocument.normal_ofInputs {i : Inputs} (h : CompiledOver .bits i.computation?) :
    (ofInputs i).normal = ofInputs i := by
  cases i with
  | zero => rfl
  | fixed params => rfl
  | computed bits c =>
    rw [Inputs.computation?] at h
    rw [ofInputs, normal, h.written?_source]

theorem OutputsDocument.normal_ofOutputs {o : Outputs} (h : CompiledOver .bits o.computation?) :
    (ofOutputs o).normal = ofOutputs o := by
  cases o with
  | fixed n => rfl
  | computed bits c =>
    rw [Outputs.computation?] at h
    rw [ofOutputs, normal, h.written?_source]

/-- **A record that is spelled out is described by its document.** -/
theorem Record.Compiled.describes {r : Record} (h : r.Compiled) :
    (Document.ofRecord r).Describes r where
  spelled := by
    rw [Document.normal, Document.ofRecord, OperandDocument.normal_ofOperand h.operand,
      InputsDocument.normal_ofInputs h.inputs, OutputsDocument.normal_ofOutputs h.outputs]
  compiled := h

/-- The computations of a valid record are over the variables that fit their places, so it is
enough that they are compiled. -/
theorem Record.Valid.compiled {r : Record} (h : r.Valid) (hc : ∀ c ∈ r.computations, c.Compiled) :
    r.Compiled where
  operand := by
    have hargs : ∀ a ∈ r.arguments, CompiledOver .arg a.computation := fun a ha =>
      ⟨(h.arguments a ha).computation, fun c hca => hc c (mem_computations.2 (.inl ⟨a, ha, hca⟩))⟩
    rw [Record.arguments] at hargs
    cases hoperand : r.operand with
    | zero => trivial
    | arguments args =>
      rw [hoperand] at hargs
      exact hargs
  inputs := by
    refine ⟨?_, fun c hci => hc c (mem_computations.2 (.inr (.inl hci)))⟩
    have hinputs := h.inputs
    cases hi : r.inputs with
    | zero => nofun
    | fixed params => nofun
    | computed bits c =>
      rw [hi] at hinputs
      exact hinputs
  outputs := by
    refine ⟨?_, fun c hco => hc c (mem_computations.2 (.inr (.inr hco)))⟩
    have houtputs := h.outputs
    cases ho : r.outputs with
    | fixed n => nofun
    | computed bits c =>
      rw [ho] at houtputs
      exact houtputs

/-- **Documents and opcodes describe the same.** A record that makes an opcode, with compiled
computations, is converted back to exactly this opcode from the document that spells it out. And if
a document is converted to an opcode, then the opcode is spelled out as the normal form of the
document, and every document of this normal form is converted to the opcode as well. -/
theorem documents_spell_out_opcodes :
    (∀ r op, Opcode.ofRecord r = .ok op → (∀ c ∈ r.computations, c.Compiled) →
      afresh (Document.ofRecord r).convert = .ok op) ∧
    ∀ (d : Document) op, afresh d.convert = .ok op →
      afresh (Document.ofRecord op.toRecord).convert = .ok op ∧
        Document.ofRecord op.toRecord = d.normal ∧
          ∀ d' : Document, d'.normal = d.normal → afresh d'.convert = .ok op := by
  refine ⟨fun r op hop hc => ?_, fun d op hd => ?_⟩
  · obtain ⟨hvalid, rfl⟩ := Opcode.ofRecord_eq_ok_iff.1 hop
    exact Document.convert_eq_ok_iff.2 (hvalid.compiled hc).describes
  · obtain ⟨hspelled, hcompiled⟩ := Document.convert_eq_ok_iff.1 hd
    refine ⟨Document.convert_eq_ok_iff.2 hcompiled.describes, hspelled, fun d' hd' => ?_⟩
    exact Document.convert_eq_ok_iff.2 ⟨hspelled.trans hd'.symm, hcompiled⟩

/-- A document with a computation of blanks and with parameters beside the bits of its inputs, and
the opcode that it is converted to. -/
theorem documents_spell_out_opcodes_of_call :
    let bits : BitRange := { lo := 0, hi := 9 }
    let c : Computation := ⟨"arg + 1", .arg, .binary .add .var (.literal 1)⟩
    let r : Record := ⟨"call", "", .arguments [⟨"inputs", none, bits, some c,
      some ⟨[.exact 3, .interval 5 9]⟩⟩], .computed bits none, .fixed 1, ["invoke"]⟩
    let d : Document := ⟨"call", "", .arguments [⟨(0, 9), "inputs", none, some "arg + 1",
      some [[3], [5, 9]]⟩], .declared [⟨"values", none, true⟩] (some (0, 9)) (some " \t"),
      .count 1, ["invoke"]⟩
    ∃ op, Opcode.ofRecord r = .ok op ∧ afresh d.convert = .ok op ∧
      afresh (Document.ofRecord r).convert = .ok op ∧ Document.ofRecord r = d.normal ∧
        Document.ofRecord r ≠ d := by
  intro bits c r d
  have hc : c.Compiled := by
    show Expr.ofSource "arg + 1" .arg = _
    decide +kernel
  have hvalid : r.Valid := Record.flaw?_eq_none_iff.1 (by decide +kernel)
  have hcomputations : ∀ x ∈ r.computations, x.Compiled := List.forall_mem_singleton.2 hc
  have hmade : Opcode.ofRecord r = .ok ⟨r, Record.flaw?_eq_none_iff.2 hvalid⟩ :=
    Opcode.ofRecord_eq_ok_iff.2 ⟨hvalid, rfl⟩
  have hspelled := documents_spell_out_opcodes.1 r _ hmade hcomputations
  have hequal : Document.ofRecord r = d.normal := by decide +kernel
  have hd : afresh d.convert = .ok ⟨r, Record.flaw?_eq_none_iff.2 hvalid⟩ :=
    Document.convert_eq_ok_iff.2 ⟨hequal, hvalid.compiled hcomputations⟩
  obtain ⟨-, hnormal, -⟩ := documents_spell_out_opcodes.2 d _ hd
  exact ⟨_, hmade, hd, hspelled, hnormal, by decide +kernel⟩

end OperandCodec
