import Mathlib.Tactic.Common
import OperandCodec.Document.Normal
import OperandCodec.Document.OfRecord
import OperandCodec.Proofs.Construction
import OperandCodec.Proofs.Scanning
/-!
# What a document describes

A document describes the record that spells it out up to its normal form,
with compiled computations (`Document.Describes`). Conversion finds exactly
this record, part by part, and there is at most one
(`Document.convert_eq_ok_iff`): no bound, no bit and no source is changed on
the way, so that what is found can be compared by what it is written as.
-/

namespace OperandCodec

/-- A computation is written over a variable and carries the tree of its source. -/
def CompiledOver (v : Variable) (c : Option Computation) : Prop :=
  IsOver v c ∧ ∀ x ∈ c, x.Compiled

/-- The computations of the arguments of an operand are compiled. -/
def Operand.Compiled : Operand → Prop
  | zero => True
  | arguments args => ∀ a ∈ args, CompiledOver .arg a.computation

/-- The computations of a record are compiled, each over the variable that fits its place. -/
structure Record.Compiled (r : Record) : Prop where
  operand : r.operand.Compiled
  inputs : CompiledOver .bits r.inputs.computation?
  outputs : CompiledOver .bits r.outputs.computation?

/-- A document describes a record: spelled out, the record is the normal form of the document. -/
structure Document.Describes (d : Document) (r : Record) : Prop where
  spelled : Document.ofRecord r = d.normal
  compiled : r.Compiled

/-! ## Bits and valid ranges -/

theorem BitRange.ofPair?_eq_ok_iff {start stop : Nat} {b : BitRange} :
    BitRange.ofPair? start stop = .ok b ↔ b.lo = start ∧ b.hi = stop := by
  have := b.lo_le_hi
  have := b.hi_lt
  unfold ofPair?
  split
  · simp only [reduceCtorEq, false_iff]
    omega
  split
  · simp only [reduceCtorEq, false_iff]
    omega
  · cases b
    simp [eq_comm]

theorem convertBits_eq_ok_iff {opcode owner : String} {pair : Nat × Nat} {b : BitRange} :
    convertBits opcode owner pair = .ok b ↔ b.toPair = pair := by
  rw [convertBits, mapError_eq_ok_iff, BitRange.ofPair?_eq_ok_iff, BitRange.toPair, Prod.ext_iff]

theorem convertBound_eq_ok_iff {opcode argument : String} {n : Nat} {w : Word} :
    convertBound opcode argument n = .ok w ↔ w.toNat = n := by
  have := w.isLt
  unfold convertBound
  split
  · rw [Except.ok.injEq, ← BitVec.toNat_inj, BitVec.toNat_ofNat, Nat.mod_eq_of_lt (by omega)]
    exact eq_comm
  · simp only [reduceCtorEq, false_iff]
    omega

theorem convertEntry_eq_ok_iff {opcode argument : String} {entry : List Nat} {e : RangeEntry} :
    convertEntry opcode argument entry = .ok e ↔ e.toList = entry := by
  unfold convertEntry
  split
  · simp only [bind_eq_ok_iff, convertBound_eq_ok_iff]
    cases e with
    | exact v => simp [RangeEntry.toList, pure, Except.pure]
    | interval lo hi => simp [RangeEntry.toList, pure, Except.pure]
  · simp only [bind_eq_ok_iff, convertBound_eq_ok_iff]
    cases e with
    | exact v => simp [RangeEntry.toList, pure, Except.pure]
    | interval lo hi => simp [RangeEntry.toList, pure, Except.pure]
  · rename_i hone htwo
    cases e with
    | exact v => simpa [RangeEntry.toList] using fun h => hone _ h.symm
    | interval lo hi => simpa [RangeEntry.toList] using fun h => htwo _ _ h.symm

/-- A step for each item, of which each is undone, is undone item by item. -/
theorem mapM_eq_ok_iff_map {ε α β γ : Type} {f : α → Except ε β} {g : β → γ} {k : α → γ}
    {P : β → Prop} (h : ∀ a b, f a = .ok b ↔ g b = k a ∧ P b) {as : List α} {bs : List β} :
    as.mapM f = .ok bs ↔ bs.map g = as.map k ∧ ∀ b ∈ bs, P b := by
  rw [mapM_eq_ok_iff]
  simp only [h]
  induction as generalizing bs with
  | nil => cases bs <;> simp
  | cons a as ih =>
    cases bs with
    | nil => simp
    | cons b bs =>
      rw [List.forall₂_cons, ih, List.forall_mem_cons, List.map_cons, List.map_cons,
        List.cons.injEq]
      exact and_and_and_comm

theorem optionMapM_eq_ok_iff_map {ε α β : Type} {f : α → Except ε β} {g : β → α}
    (h : ∀ a b, f a = .ok b ↔ g b = a) {o : Option α} {r : Option β} :
    o.mapM f = .ok r ↔ r.map g = o := by
  cases o with
  | none => cases r <;> simp [pure, Except.pure]
  | some a =>
    rw [Option.mapM_some, ← bind_pure_comp, bind_eq_ok_iff]
    cases r <;> simp [pure, Except.pure, h]

theorem convertValidRange_eq_ok_iff {opcode argument : String} {entries : List (List Nat)}
    {r : ValidRange} : convertValidRange opcode argument entries = .ok r ↔
      r.entries.map RangeEntry.toList = entries := by
  have hentry : ∀ entry e, convertEntry opcode argument entry = .ok e ↔
      e.toList = id entry ∧ True := by
    simp [convertEntry_eq_ok_iff]
  rw [convertValidRange, bind_eq_ok_iff]
  simp only [mapM_eq_ok_iff_map hentry, List.map_id, implies_true, and_true]
  constructor
  · rintro ⟨es, hes, h⟩
    obtain rfl := Except.ok.inj h
    exact hes
  · intro h
    exact ⟨r.entries, h, rfl⟩

/-! ## Computations -/

theorem Computation.ofTree_eq_ok_iff {source : String} {v : Variable} {c : Computation} :
    Computation.ofTree source v (Expr.ofSource source v) = .ok c ↔
      c.source = source ∧ c.var = v ∧ c.Compiled := by
  cases c with
  | mk source' v' e =>
    unfold Computation.ofTree Computation.Compiled
    constructor
    · intro h
      split at h
      · rename_i e' he'
        cases h
        exact ⟨rfl, rfl, he'⟩
      · cases h
    · rintro ⟨rfl, rfl, he⟩
      simp only at he
      rw [he]

/-- Blanks have no tokens. -/
theorem scans_of_forall_isBlank {text : List Char} (h : ∀ c ∈ text, Text.isBlank c) :
    Scans text [.eof] := by
  induction text with
  | nil => exact .nil
  | cons c text ih =>
    obtain ⟨hc, htext⟩ := List.forall_mem_cons.1 h
    exact .blank hc (ih htext)

/-- A source of blanks has no tree. -/
theorem Expr.ofSource_of_isAllBlank {source : String} (h : Text.isAllBlank source)
    (v : Variable) : Expr.ofSource source v = .error .empty := by
  have htokens : Token.ofSource source = .ok [.eof] :=
    scans_of_forall_isBlank (List.all_eq_true.1 h) 0
  rw [Expr.ofSource, htokens]
  rfl

/-- So the source of a compiled computation is not blank. -/
theorem Computation.Compiled.written?_source {c : Computation} (h : c.Compiled) :
    written? (some c.source) = some c.source := by
  unfold written?
  rw [Option.filter_eq_some_iff]
  refine ⟨rfl, ?_⟩
  cases hblank : Text.isAllBlank c.source with
  | false => rfl
  | true =>
    rw [Compiled, Expr.ofSource_of_isAllBlank hblank] at h
    cases h

theorem compileOptional_eq_ok_iff {place : Place} {source : Option String} {v : Variable}
    {c : Option Computation} : afresh (compileOptional place source v) = .ok c ↔
      c.map (·.source) = written? source ∧ CompiledOver v c := by
  unfold compileOptional
  rw [← written?]
  cases written? source with
  | none =>
    cases c with
    | none => simp [CompiledOver, IsOver]
    | some c => simp
  | some source =>
    simp only [afresh_bind, afresh_tryCatch_throw, bind_eq_ok_iff, mapError_eq_ok_iff,
      afresh_compile, Computation.ofTree_eq_ok_iff, afresh_pure, Except.ok.injEq]
    cases c with
    | none => simp
    | some c => simp [CompiledOver, IsOver]

/-! ## Parts of a document -/

variable {opcode : String}

/-- **A written argument is converted to the argument that it spells out.** -/
theorem ArgumentDocument.convert_eq_ok_iff {d : ArgumentDocument} {a : Argument} :
    afresh (d.convert opcode) = .ok a ↔
      ofArgument a = d.normal ∧ CompiledOver .arg a.computation := by
  obtain ⟨bits, name, desc, computation, validRange⟩ := d
  obtain ⟨name', desc', bits', computation', validRange'⟩ := a
  have hrange : ∀ r, (validRange.mapM (convertValidRange opcode name) = .ok r) ↔
      r.map (fun r => r.entries.map RangeEntry.toList) = validRange := by
    intro r
    exact optionMapM_eq_ok_iff_map fun _ _ => convertValidRange_eq_ok_iff
  simp only [ArgumentDocument.convert, afresh_bind, afresh_ofExcept, bind_eq_ok_iff, hrange,
    convertBits_eq_ok_iff, compileOptional_eq_ok_iff, afresh_pure, Except.ok.injEq, ofArgument,
    ArgumentDocument.normal, ArgumentDocument.mk.injEq, Argument.mk.injEq]
  constructor
  · rintro ⟨_, hbits, _, hr, _, ⟨hsource, hcompiled⟩, rfl, rfl, rfl, rfl, rfl⟩
    exact ⟨⟨hbits, rfl, rfl, hsource, hr⟩, hcompiled⟩
  · rintro ⟨⟨hbits, rfl, rfl, hsource, hr⟩, hcompiled⟩
    exact ⟨_, hbits, _, hr, _, ⟨hsource, hcompiled⟩, rfl, rfl, rfl, rfl, rfl⟩

theorem OperandDocument.convert_eq_ok_iff {d : OperandDocument} {o : Operand} :
    afresh (d.convert opcode) = .ok o ↔ ofOperand o = d.normal ∧ o.Compiled := by
  cases d with
  | zero =>
    cases o with
    | zero => simp [OperandDocument.convert, ofOperand, OperandDocument.normal, Operand.Compiled]
    | arguments args => simp [OperandDocument.convert, ofOperand, OperandDocument.normal]
  | arguments ds =>
    simp only [OperandDocument.convert, afresh_bind, afresh_mapM, bind_eq_ok_iff, afresh_pure,
      mapM_eq_ok_iff_map fun _ _ => ArgumentDocument.convert_eq_ok_iff, Except.ok.injEq]
    cases o with
    | zero => simp [ofOperand, OperandDocument.normal]
    | arguments args => simp [ofOperand, OperandDocument.normal, Operand.Compiled]

/-- Parameters are written as they are. -/
theorem ParameterDocument.map_convert_eq_iff {ds : List ParameterDocument}
    {params : List Parameter} : ds.map (·.convert) = params ↔ params.map ofParameter = ds := by
  constructor
  · rintro rfl
    simp [Function.comp_def, ofParameter, ParameterDocument.convert]
  · rintro rfl
    simp [Function.comp_def, ofParameter, ParameterDocument.convert]

theorem InputsDocument.convert_eq_ok_iff {d : InputsDocument} {i : Inputs} :
    afresh (d.convert opcode) = .ok i ↔
      ofInputs i = d.normal ∧ CompiledOver .bits i.computation? := by
  cases d with
  | zero =>
    cases i <;> simp [InputsDocument.convert, ofInputs, InputsDocument.normal, CompiledOver,
      IsOver, Inputs.computation?]
  | declared params bits computation =>
    cases bits with
    | some pair =>
      simp only [InputsDocument.convert, afresh_bind, afresh_ofExcept, bind_eq_ok_iff,
        convertBits_eq_ok_iff, compileOptional_eq_ok_iff, afresh_pure, Except.ok.injEq]
      cases i <;> simp [ofInputs, InputsDocument.normal, Inputs.computation?, and_assoc]
    | none =>
      rw [InputsDocument.convert, InputsDocument.normal, ← written?]
      cases written? computation with
      | none =>
        cases i <;> simp [ofInputs, Inputs.computation?, ParameterDocument.map_convert_eq_iff,
          CompiledOver, IsOver]
      | some source => cases i <;> simp [ofInputs]

theorem OutputsDocument.convert_eq_ok_iff {d : OutputsDocument} {o : Outputs} :
    afresh (d.convert opcode) = .ok o ↔
      ofOutputs o = d.normal ∧ CompiledOver .bits o.computation? := by
  cases d with
  | count n =>
    cases o <;> simp [OutputsDocument.convert, ofOutputs, OutputsDocument.normal, CompiledOver,
      IsOver, Outputs.computation?, eq_comm]
  | declared bits computation =>
    cases bits with
    | some pair =>
      simp only [OutputsDocument.convert, afresh_bind, afresh_ofExcept, bind_eq_ok_iff,
        convertBits_eq_ok_iff, compileOptional_eq_ok_iff, afresh_pure, Except.ok.injEq]
      cases o <;> simp [ofOutputs, OutputsDocument.normal, Outputs.computation?, and_assoc]
    | none =>
      cases o <;> simp [OutputsDocument.convert, ofOutputs, OutputsDocument.normal]

/-! ## Documents -/

namespace Document

/-- The record of a document, before it is checked. -/
def parts (d : Document) : Except Error Record := do
  let operand ← afresh (d.operand.convert d.name)
  let inputs ← afresh (d.inputs.convert d.name)
  let outputs ← afresh (d.outputs.convert d.name)
  return ⟨d.name, d.desc, operand, inputs, outputs, d.aliases⟩

/-- Conversion is the check of that record. -/
theorem afresh_convert (d : Document) : afresh d.convert = d.parts >>= Opcode.ofRecord := by
  simp only [convert, parts, afresh_bind, afresh_ofExcept, bind_assoc, pure_bind]

/-- **The parts of a document are converted to the record that it describes.** -/
theorem parts_eq_ok_iff {d : Document} {r : Record} : d.parts = .ok r ↔ d.Describes r := by
  simp only [parts, bind_eq_ok_iff, OperandDocument.convert_eq_ok_iff,
    InputsDocument.convert_eq_ok_iff, OutputsDocument.convert_eq_ok_iff]
  constructor
  · rintro ⟨operand, ⟨hoperand, hc⟩, inputs, ⟨hinputs, hc'⟩, outputs, ⟨houtputs, hc''⟩, h⟩
    obtain rfl := Except.ok.inj h
    exact ⟨by rw [normal, ← hoperand, ← hinputs, ← houtputs]; rfl, hc, hc', hc''⟩
  · rintro ⟨hspelled, hc, hc', hc''⟩
    obtain ⟨hname, hdesc, hoperand, hinputs, houtputs, haliases⟩ := Document.mk.inj hspelled
    refine ⟨_, ⟨hoperand, hc⟩, _, ⟨hinputs, hc'⟩, _, ⟨houtputs, hc''⟩, ?_⟩
    rw [← hname, ← hdesc, ← haliases]
    rfl

/-- A document describes at most one record. -/
theorem Describes.unique {d : Document} {r r' : Record} (h : d.Describes r)
    (h' : d.Describes r') : r = r' :=
  Except.ok.inj ((parts_eq_ok_iff.2 h).symm.trans (parts_eq_ok_iff.2 h'))

/-- **A document is converted to the opcode of the record that it describes.** -/
theorem convert_eq_ok_iff {d : Document} {op : Opcode} :
    afresh d.convert = .ok op ↔ d.Describes op.toRecord := by
  rw [afresh_convert, bind_eq_ok_iff]
  simp only [parts_eq_ok_iff, Opcode.ofRecord_eq_ok_iff]
  constructor
  · rintro ⟨r, h, -, rfl⟩
    exact h
  · intro h
    exact ⟨op.toRecord, h, op.valid, rfl⟩

end Document
end OperandCodec
