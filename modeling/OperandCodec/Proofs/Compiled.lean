import Mathlib.Tactic.Common
import OperandCodec.Proofs.Afresh
import OperandCodec.Session.Library
/-!
# Computations carry the trees of their sources

Every computation comes out of a compilation, by itself or in the course of
loading a document, and so it carries the tree of its source. Nothing that
is done with opcodes and tables afterwards makes another computation:
whatever is handed out was compiled if what was handed over was
(`LibraryCall.answer_compiled`).
-/

namespace OperandCodec

/-- A computation carries the tree of its source. -/
def Computation.Compiled (c : Computation) : Prop :=
  Expr.ofSource c.source c.var = .ok c.expr

/-- Computations that are compared equal and carry the trees of their sources are the same. -/
theorem Computation.Compiled.expr_eq {c c' : Computation} (h : c.Compiled) (h' : c'.Compiled)
    (heq : c == c') : c.expr = c'.expr := by
  change (c.var == c'.var && c.source == c'.source) = true at heq
  rw [Bool.and_eq_true, beq_iff_eq, beq_iff_eq] at heq
  rw [Compiled, heq.1, heq.2, h'] at h
  exact (Except.ok.inj h).symm

/-- A compilation that is answered afresh looks at the tree of the source. -/
theorem afresh_compile (source : String) (v : Variable) :
    afresh (Computation.compile source v) =
      Computation.ofTree source v (Expr.ofSource source v) := by
  rw [Computation.compile, afresh_bind]
  show (Except.ok (Expr.ofSource source v) >>= fun _ => _) = _
  exact afresh_ofExcept _

theorem Computation.compiled_of_compile {source : String} {v : Variable} {c : Computation}
    (h : afresh (Computation.compile source v) = .ok c) : c.Compiled := by
  rw [afresh_compile] at h
  unfold ofTree at h
  split at h
  · rename_i e he
    obtain rfl := Except.ok.inj h
    exact he
  · cases h

/-! ## Documents -/

/-- A checked record is the record that was checked. -/
theorem Opcode.record_of_ofRecord {r : Record} {op : Opcode} (h : Opcode.ofRecord r = .ok op) :
    op.toRecord = r := by
  unfold ofRecord at h
  split at h
  · obtain rfl := Except.ok.inj h
    rfl
  · cases h

/-- A table holds the opcodes that it was made of. -/
theorem OpcodeTable.opcodes_of_ofOpcodes {ops : List Opcode} {t : OpcodeTable}
    (h : OpcodeTable.ofOpcodes ops = .ok t) : t.opcodes = ops := by
  unfold ofOpcodes at h
  split at h
  · obtain rfl := Except.ok.inj h
    rfl
  · cases h
  · cases h

theorem compiled_of_compileOptional {place : Place} {source : Option String} {v : Variable}
    {c : Option Computation} (h : afresh (compileOptional place source v) = .ok c) :
    ∀ x ∈ c, x.Compiled := by
  unfold compileOptional at h
  split at h
  · obtain rfl := Except.ok.inj h
    intro x hx
    cases hx
  · rw [afresh_bind, afresh_tryCatch_throw, bind_eq_ok_iff] at h
    obtain ⟨c', hc', h⟩ := h
    obtain rfl := Except.ok.inj h
    rintro x ⟨⟩
    exact Computation.compiled_of_compile (mapError_eq_ok_iff.1 hc')

variable {opcode : String}

theorem ArgumentDocument.compiled_of_convert {d : ArgumentDocument} {a : Argument}
    (h : afresh (d.convert opcode) = .ok a) : ∀ c ∈ a.computation, c.Compiled := by
  simp only [ArgumentDocument.convert, afresh_bind, bind_eq_ok_iff] at h
  obtain ⟨bits, -, range, -, c, hc, h⟩ := h
  obtain rfl := Except.ok.inj h
  exact compiled_of_compileOptional hc

theorem OperandDocument.compiled_of_convert {d : OperandDocument} {args : List Argument}
    (h : afresh (d.convert opcode) = .ok (.arguments args)) :
    ∀ a ∈ args, ∀ c ∈ a.computation, c.Compiled := by
  cases d with
  | zero => cases h
  | arguments ds =>
    simp only [OperandDocument.convert, afresh_bind, afresh_mapM, bind_eq_ok_iff] at h
    obtain ⟨args', hargs', h⟩ := h
    obtain rfl : args' = args := Operand.arguments.inj (Except.ok.inj h)
    intro a ha
    obtain ⟨d, -, hd⟩ := exists_mem_of_mem_mapM hargs' ha
    exact d.compiled_of_convert hd

theorem InputsDocument.compiled_of_convert {d : InputsDocument} {i : Inputs}
    (h : afresh (d.convert opcode) = .ok i) : ∀ c ∈ i.computation?, c.Compiled := by
  unfold InputsDocument.convert at h
  split at h
  · obtain rfl := Except.ok.inj h
    nofun
  · simp only [afresh_bind, bind_eq_ok_iff] at h
    obtain ⟨bits, -, c, hc, h⟩ := h
    obtain rfl := Except.ok.inj h
    exact compiled_of_compileOptional hc
  · split at h
    · cases h
    · obtain rfl := Except.ok.inj h
      nofun

theorem OutputsDocument.compiled_of_convert {d : OutputsDocument} {o : Outputs}
    (h : afresh (d.convert opcode) = .ok o) : ∀ c ∈ o.computation?, c.Compiled := by
  unfold OutputsDocument.convert at h
  split at h
  · obtain rfl := Except.ok.inj h
    nofun
  · simp only [afresh_bind, bind_eq_ok_iff] at h
    obtain ⟨bits, -, c, hc, h⟩ := h
    obtain rfl := Except.ok.inj h
    exact compiled_of_compileOptional hc
  · cases h

theorem Record.mem_computations {r : Record} {c : Computation} :
    c ∈ r.computations ↔ (∃ a ∈ r.arguments, c ∈ a.computation) ∨
      c ∈ r.inputs.computation? ∨ c ∈ r.outputs.computation? := by
  simp only [computations, List.mem_append, List.mem_filterMap, Option.mem_toList, or_assoc]
  rfl

/-- **The computations of a loaded opcode are compiled.** -/
theorem Document.compiled_of_convert {d : Document} {op : Opcode}
    (h : afresh d.convert = .ok op) : ∀ c ∈ op.computations, c.Compiled := by
  simp only [Document.convert, afresh_bind, afresh_ofExcept, bind_eq_ok_iff] at h
  obtain ⟨operand, hoperand, inputs, hinputs, outputs, houtputs, h⟩ := h
  have hrecord := Opcode.record_of_ofRecord h
  intro c hc
  rw [hrecord, Record.mem_computations] at hc
  rcases hc with ⟨a, ha, hc⟩ | hc | hc
  · cases operand with
    | zero => cases ha
    | arguments args => exact d.operand.compiled_of_convert hoperand a ha c hc
  · exact d.inputs.compiled_of_convert hinputs c hc
  · exact d.outputs.compiled_of_convert houtputs c hc

theorem Opcode.compiled_of_ofText {text : String} {op : Opcode}
    (h : afresh (Opcode.ofText text) = .ok op) : ∀ c ∈ op.computations, c.Compiled := by
  simp only [Opcode.ofText, afresh_bind, afresh_ofExcept, bind_eq_ok_iff] at h
  obtain ⟨d, -, h⟩ := h
  exact Document.compiled_of_convert h

namespace OpcodeTable

variable {t : OpcodeTable}

/-- A table of loaded opcodes has their computations. -/
theorem compiled_of_load {opcodes : ExceptT Error Id (List Opcode)}
    (hops : ∀ ops, afresh opcodes = .ok ops → ∀ op ∈ ops, ∀ c ∈ op.computations, c.Compiled)
    (h : afresh (load opcodes) = .ok t) : ∀ c ∈ t.computations, c.Compiled := by
  simp only [load, afresh_bind, afresh_adapt, afresh_ofExcept, bind_eq_ok_iff,
    mapError_eq_ok_iff] at h
  obtain ⟨ops, hload, h⟩ := h
  intro c hc
  obtain ⟨op, hop, hc⟩ := List.mem_flatMap.1 hc
  rw [opcodes_of_ofOpcodes h] at hop
  exact hops ops hload op hop c hc

theorem compiled_of_ofText {text : String} (h : afresh (ofText text) = .ok t) :
    ∀ c ∈ t.computations, c.Compiled := by
  refine compiled_of_load (fun ops hload op hop => ?_) h
  simp only [opcodesOfText, afresh_bind, afresh_mapM, bind_eq_ok_iff] at hload
  obtain ⟨docs, -, hload⟩ := hload
  obtain ⟨d, -, hd⟩ := exists_mem_of_mem_mapM hload hop
  exact Document.compiled_of_convert hd

theorem compiled_of_ofDocumentTexts {texts : List String}
    (h : afresh (ofDocumentTexts texts) = .ok t) : ∀ c ∈ t.computations, c.Compiled := by
  refine compiled_of_load (fun ops hload op hop => ?_) h
  rw [afresh_mapM] at hload
  obtain ⟨text, -, hop⟩ := exists_mem_of_mem_mapM hload hop
  exact Opcode.compiled_of_ofText hop

end OpcodeTable

/-! ## Answers -/

/-- An answer about an opcode hands out no computations but its own. -/
theorem OpcodeQuery.mem_computations {op : Opcode} {q : OpcodeQuery} {a : OpcodeAnswer}
    (h : afresh (q.answer op) = .ok a) : ∀ c ∈ a.computations, c ∈ op.computations := by
  intro c hc
  cases q with
  | all =>
    obtain rfl := Except.ok.inj h
    exact hc
  | argument name =>
    obtain rfl := Except.ok.inj h
    cases ha : op.argument? name with
    | none =>
      rw [ha] at hc
      cases hc
    | some a =>
      rw [ha] at hc
      exact Record.mem_computations.2 (Or.inl ⟨a, List.mem_of_find?_eq_some ha,
        Option.mem_toList.1 hc⟩)
  | describe =>
    obtain rfl := Except.ok.inj h
    cases hc
  | build | read | render | inputs | outputs | roundTrip =>
    simp only [answer, afresh_bind, bind_eq_ok_iff] at h
    obtain ⟨_, -, h⟩ := h
    obtain rfl := Except.ok.inj h
    cases hc

/-- **Whatever the library hands out was compiled**, if what was handed over was. -/
theorem LibraryCall.answer_compiled {call : LibraryCall}
    (h : ∀ c ∈ call.computations, c.Compiled) :
    ∀ c ∈ (Id.run call.answer).computations, c.Compiled := by
  cases call with
  | compile source v =>
    show ∀ c ∈ (LibraryAnswer.computation (afresh (Computation.compile source v))).computations, _
    cases hc : afresh (Computation.compile source v) with
    | error e => nofun
    | ok c => exact List.forall_mem_singleton.2 (Computation.compiled_of_compile hc)
  | evaluate | apply | invert => nofun
  | opcode r =>
    show ∀ c ∈ (LibraryAnswer.opcode (Opcode.ofRecord r)).computations, _
    cases hop : Opcode.ofRecord r with
    | error e => nofun
    | ok op =>
      -- the check keeps the computations that the caller has put into the record
      show ∀ c ∈ op.computations, _
      rw [Opcode.record_of_ofRecord hop]
      exact h
  | loadOpcode text =>
    show ∀ c ∈ (LibraryAnswer.opcode (afresh (Opcode.ofText text))).computations, _
    cases hop : afresh (Opcode.ofText text) with
    | error e => nofun
    | ok op => exact Opcode.compiled_of_ofText hop
  | loadTable text =>
    show ∀ c ∈ (LibraryAnswer.table (afresh (OpcodeTable.ofText text))).computations, _
    cases ht : afresh (OpcodeTable.ofText text) with
    | error e => nofun
    | ok t => exact OpcodeTable.compiled_of_ofText ht
  | loadTexts texts =>
    show ∀ c ∈ (LibraryAnswer.table (afresh (OpcodeTable.ofDocumentTexts texts))).computations, _
    cases ht : afresh (OpcodeTable.ofDocumentTexts texts) with
    | error e => nofun
    | ok t => exact OpcodeTable.compiled_of_ofDocumentTexts ht
  | ask op q =>
    show ∀ c ∈ (LibraryAnswer.asked (afresh (q.answer op))).computations, _
    cases ha : afresh (q.answer op) with
    | error e => nofun
    | ok a => exact fun c hc => h c (OpcodeQuery.mem_computations ha c hc)

/-- An answer about a table hands out no computations but its own. -/
theorem TableQuery.mem_computations {t : OpcodeTable} {q : TableQuery} :
    ∀ c ∈ (Id.run (q.answer t)).computations, c ∈ t.computations := by
  cases q with
  | summary => exact fun c hc => hc
  | primaryName name => nofun
  | opcode name q =>
    cases hop : t.get? name with
    | none =>
      simp only [answer, hop]
      nofun
    | some op =>
      simp only [answer, hop]
      show ∀ c ∈ (TableAnswer.opcode (afresh (q.answer op))).computations, _
      cases ha : afresh (q.answer op) with
      | error e => nofun
      | ok a =>
        intro c hc
        exact List.mem_flatMap.2 ⟨op, List.mem_of_find?_eq_some hop,
          OpcodeQuery.mem_computations ha c hc⟩

theorem Call.run_orFailed {α : Type} (f : α → CallAnswer) (x : ExceptT Error Id α) :
    Id.run (answer.orFailed f x) = match afresh x with
      | .ok a => f a
      | .error e => .failed e := by
  unfold answer.orFailed afresh
  rw [Id.run_bind]
  cases Id.run x.run <;> rfl

theorem Call.run_loadTable (text : String) :
    Id.run (Call.loadTable text).answer = match afresh (OpcodeTable.ofText text) with
      | .ok t => .table t
      | .error e => .tableFailed e := by
  unfold answer afresh
  rw [Id.run_bind]
  cases Id.run (OpcodeTable.ofText text).run <;> rfl

/-- What is handed out in answer to a call by source was compiled. -/
theorem Call.answer_compiled (call : Call) :
    ∀ c ∈ (Answer.call (Id.run call.answer)).computations, c.Compiled := by
  cases call with
  | compile source v =>
    show ∀ c ∈ (Answer.call (Id.run (answer.orFailed _ _))).computations, _
    rw [run_orFailed]
    cases hc : afresh (Computation.compile source v) with
    | error e => nofun
    | ok c => exact List.forall_mem_singleton.2 (Computation.compiled_of_compile hc)
  | evaluate source v x =>
    show ∀ c ∈ (Answer.call (Id.run (answer.orFailed _ _))).computations, _
    rw [run_orFailed]
    split <;> nofun
  | invert source v target width =>
    show ∀ c ∈ (Answer.call (Id.run (answer.orFailed _ _))).computations, _
    rw [run_orFailed]
    split <;> nofun
  | loadTable text =>
    rw [run_loadTable]
    cases ht : afresh (OpcodeTable.ofText text) with
    | error e => nofun
    | ok t => exact OpcodeTable.compiled_of_ofText ht

end OperandCodec
