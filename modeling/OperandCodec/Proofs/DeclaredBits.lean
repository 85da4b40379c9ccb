import Mathlib.Tactic.Common
import OperandCodec.Proofs.Decode
import OperandCodec.Proofs.Fields
import OperandCodec.Proofs.FirstFailure
import OperandCodec.Record.Check
import OperandCodec.Record.Fields
/-!
# Reading looks at the declared bits

Whatever reading makes of a word, it makes of the contents of the fields of
the record. So two words with the same contents are read alike, errors
included, and a word is refused exactly where one of its fields refuses it:
the first one decides, in the order arguments, inputs, outputs
(`read_by_declared_bits`).
-/

namespace OperandCodec

variable {opcode : String} {w w' : Word} {e : Error}

/-- An optional computation fails with the fault of its tree. -/
theorem Computation.applyOptional_eq_error_iff {c : Option Computation} {x : Value} :
    applyOptional c x = .error e ↔
      ∃ k, c = some k ∧ ∃ fault, k.expr.eval x = .error fault ∧ k.faultError fault = e := by
  cases c with
  | none => simp [applyOptional]
  | some k =>
    rw [applyOptional, apply, mapError_eq_error_iff]
    simp

/-! ## One field -/

/-- An argument is not decoded where its field refuses the word. -/
theorem Argument.decode_eq_error_iff {a : Argument} :
    (a.decode w).mapError (·.inPlace ⟨opcode, .argument a.name⟩) = .error e ↔
      a.field.Refuses opcode w e := by
  simp only [mapError_eq_error_iff, decode, Computation.applyOptional_eq_error_iff]
  constructor
  · rintro ⟨_, ⟨c, hc, fault, heval, rfl⟩, rfl⟩
    exact .fault hc heval
  · intro h
    cases h with
    | fault hc heval => exact ⟨_, ⟨_, hc, _, heval, rfl⟩, rfl⟩
    | negative hsubject => cases hsubject

/-- A count is not computed where its field refuses the word. -/
theorem computedCount_eq_error_iff {arity : Arity} {bits : BitRange} {c : Option Computation} :
    (computedCount arity bits c (some w)).mapError (·.inPlace ⟨opcode, .computed arity⟩) =
        .error e ↔
      Field.Refuses opcode w ⟨.computed arity, bits, c⟩ e := by
  rw [computedCount_some, mapError_eq_error_iff]
  simp only [bind_eq_error_iff, Computation.applyOptional_eq_error_iff]
  constructor
  · rintro ⟨_, ⟨k, hk, fault, heval, rfl⟩ | ⟨count, hcount, h⟩, rfl⟩
    · exact .fault hk heval
    · by_cases hneg : count.toInt < 0
      · rw [if_pos hneg] at h
        obtain rfl := Except.error.inj h
        exact .negative rfl hcount hneg
      · rw [if_neg hneg] at h
        cases h
  · intro h
    cases h with
    | fault hk heval => exact ⟨_, .inl ⟨_, hk, _, heval, rfl⟩, rfl⟩
    | negative hsubject hcount hneg =>
      cases hsubject
      exact ⟨_, .inr ⟨_, hcount, if_pos hneg⟩, rfl⟩

theorem Inputs.resolve_eq_error_iff {inputs : Inputs} :
    (inputs.resolve (some w)).mapError (·.inPlace ⟨opcode, .computed .inputs⟩) = .error e ↔
      ∃ f ∈ inputs.field?, f.Refuses opcode w e := by
  cases inputs with
  | zero => simp [resolve, field?, Except.mapError]
  | fixed params => simp [resolve, field?, Except.mapError]
  | computed bits c =>
    simp only [resolve, field?, Option.mem_some_iff, exists_eq_left', ← computedCount_eq_error_iff]
    cases computedCount .inputs bits c (some w) <;> simp [Except.map, Except.mapError]

theorem Outputs.resolve_eq_error_iff {outputs : Outputs} :
    (outputs.resolve (some w)).mapError (·.inPlace ⟨opcode, .computed .outputs⟩) = .error e ↔
      ∃ f ∈ outputs.field?, f.Refuses opcode w e := by
  cases outputs with
  | fixed count => simp [resolve, field?, Except.mapError]
  | computed bits c =>
    simp only [resolve, field?, Option.mem_some_iff, exists_eq_left', ← computedCount_eq_error_iff]

/-! ## The whole word -/

namespace Record

variable {r : Record}

/-- The arguments have no values where the field of one refuses the word. -/
theorem values_eq_error_iff : r.values w = .error e ↔
    FirstWith (fun f e => f.Refuses r.name w e) (r.arguments.map Argument.field) e := by
  have hstep : ∀ (a : Argument) (e : Error),
      (do
        let v ← (a.decode w).mapError (·.inPlace ⟨r.name, .argument a.name⟩)
        return (a.name, v) : Except Error _) = .error e ↔ a.field.Refuses r.name w e := by
    intro a e
    rw [bind_eq_error_iff, ← Argument.decode_eq_error_iff]
    exact ⟨fun h => h.resolve_right nofun, .inl⟩
  rw [values, mapM_eq_error_iff, firstWith_map_iff]
  simp only [hstep]

/-- The arities are not resolved where the field of one refuses the word, inputs first. -/
theorem arities_eq_error_iff {vs : List (String × Value)} :
    (do
      let inputs ← (r.inputs.resolve (some w)).mapError (·.inPlace ⟨r.name, .computed .inputs⟩)
      let outputs ← (r.outputs.resolve (some w)).mapError (·.inPlace ⟨r.name, .computed .outputs⟩)
      return ⟨sortByName vs, inputs, outputs⟩ : Except Error Decoded) = .error e ↔
    FirstWith (fun f e => f.Refuses r.name w e)
      (r.inputs.field?.toList ++ r.outputs.field?.toList) e := by
  have houtputs : ∀ inputs, (do
      let outputs ← (r.outputs.resolve (some w)).mapError (·.inPlace ⟨r.name, .computed .outputs⟩)
      return ⟨sortByName vs, inputs, outputs⟩ : Except Error Decoded) = .error e ↔
      ∃ f ∈ r.outputs.field?, f.Refuses r.name w e := by
    intro inputs
    rw [bind_eq_error_iff, Outputs.resolve_eq_error_iff]
    exact ⟨fun h => h.resolve_right nofun, .inl⟩
  rw [bind_eq_error_iff]
  simp only [houtputs, exists_and_right, exists_eq_ok_iff, Inputs.resolve_eq_error_iff,
    firstWith_append_iff, firstWith_toList_iff]

/-- **Reading fails with what the first field to refuse the word objects to.** -/
theorem read_eq_error_iff : r.read w = .error e ↔
    FirstWith (fun f e => f.Refuses r.name w e) r.fields e := by
  rw [read, bind_eq_error_iff, fields, firstWith_append_iff, values_eq_error_iff]
  refine or_congr_right ?_
  -- the arities are looked at where there are values, whatever these are
  refine (exists_congr fun vs => and_congr_right fun _ => arities_eq_error_iff).trans ?_
  rw [exists_and_right, exists_eq_ok_iff]
  simp only [values_eq_error_iff]

/-! ## Two words -/

/-- Words that agree at the positions of every field have the same content of each. -/
theorem AgreeOnFields.unpack_eq (h : r.AgreeOnFields w w') {f : Field} (hf : f ∈ r.fields) :
    w.unpack f.bits = w'.unpack f.bits :=
  Word.unpack_eq_iff.2 (h f hf)

theorem AgreeOnFields.values_eq (h : r.AgreeOnFields w w') : r.values w = r.values w' := by
  refine mapM_congr fun a ha => ?_
  have hunpack : w.unpack a.bits = w'.unpack a.bits :=
    h.unpack_eq (f := a.field) (mem_fields.2 (.inl ⟨a, ha, rfl⟩))
  rw [Argument.decode, Argument.decode, hunpack]

theorem AgreeOnFields.inputs_eq (h : r.AgreeOnFields w w') :
    r.inputs.resolve (some w) = r.inputs.resolve (some w') := by
  cases hinputs : r.inputs with
  | zero | fixed => rfl
  | computed bits c =>
    have hunpack : w.unpack bits = w'.unpack bits :=
      h.unpack_eq (f := ⟨.computed .inputs, bits, c⟩) (mem_fields.2 (.inr (.inl (hinputs ▸ rfl))))
    rw [Inputs.resolve, Inputs.resolve, computedCount_some, computedCount_some, hunpack]

theorem AgreeOnFields.outputs_eq (h : r.AgreeOnFields w w') :
    r.outputs.resolve (some w) = r.outputs.resolve (some w') := by
  cases houtputs : r.outputs with
  | fixed => rfl
  | computed bits c =>
    have hunpack : w.unpack bits = w'.unpack bits :=
      h.unpack_eq (f := ⟨.computed .outputs, bits, c⟩) (mem_fields.2 (.inr (.inr (houtputs ▸ rfl))))
    rw [Outputs.resolve, Outputs.resolve, computedCount_some, computedCount_some, hunpack]

/-- **Words that agree at the positions of every field are read alike.** -/
theorem AgreeOnFields.read_eq (h : r.AgreeOnFields w w') : r.read w = r.read w' := by
  rw [read, read, h.values_eq, h.inputs_eq, h.outputs_eq]

/-- Rendering fails where reading does, and with the same error. -/
theorem render_eq_error_iff : r.render w = .error e ↔ r.read w = .error e := by
  rw [render, bind_eq_error_iff]
  refine ⟨fun h => h.resolve_right ?_, .inl⟩
  rintro ⟨d, -, h⟩
  dsimp only at h
  split at h <;> cases h

end Record

/-- A field refuses a word with an arithmetic error or a range error. -/
theorem Field.Refuses.kind {f : Field} (h : f.Refuses opcode w e) :
    e.kind = .arithmetic ∨ e.kind = .range := by
  cases h with
  | fault => exact .inl rfl
  | negative => exact .inr rfl

/-- **Reading looks at the declared bits only, and fails only where a field refuses the word.** -/
theorem read_by_declared_bits (op : Opcode) :
    (∀ w w', op.AgreeOnFields w w' → op.read w = op.read w' ∧ op.render w = op.render w') ∧
      ∀ w e,
        (op.read w = .error e ↔ FirstWith (fun f e => f.Refuses op.name w e) op.fields e) ∧
        (op.render w = .error e ↔ op.read w = .error e) ∧
        (op.read w = .error e → e.kind = .arithmetic ∨ e.kind = .range) := by
  refine ⟨fun w w' h => ⟨h.read_eq, ?_⟩, fun w e => ⟨Record.read_eq_error_iff,
    Record.render_eq_error_iff, fun h => ?_⟩⟩
  · rw [Record.render, Record.render, h.read_eq]
  · obtain ⟨f, -, hf⟩ := (Record.read_eq_error_iff.1 h).exists_mem
    exact hf.kind

/-- An opcode with a divisor in its low bits and a count of outputs behind it that is written one
higher. -/
def dividingOpcode : Opcode where
  name := "share"
  desc := ""
  operand := .arguments [⟨"part", none, { lo := 0, hi := 2 },
    some ⟨"12 / arg", .arg, .binary .div (.literal 12) .var⟩, none⟩]
  inputs := .zero
  outputs := .computed { lo := 3, hi := 6 }
    (some ⟨"bits - 1", .bits, .binary .sub .var (.literal 1)⟩)
  aliases := []
  sound := by decide

/-- The high byte is not looked at. Where both fields refuse the word, the argument decides. -/
theorem read_by_declared_bits_of_dividing :
    dividingOpcode.read 0x2A23 = dividingOpcode.read 0x0023 ∧
      dividingOpcode.read 0x0000 = .error (.arithmetic "12 / arg" .divisionByZero
        (some ⟨"share", .argument "part"⟩)) ∧
      dividingOpcode.read 0x0003 = .error (.range (.negativeCount .outputs (-1) 0)
        (some ⟨"share", .computed .outputs⟩)) := by
  obtain ⟨hagree, hfails⟩ := read_by_declared_bits dividingOpcode
  have hhigh : dividingOpcode.AgreeOnFields 0x2A23 0x0023 := by
    refine fun f hf => Word.unpack_eq_iff.1 ?_
    revert f
    decide
  let quotient : Computation := ⟨"12 / arg", .arg, .binary .div (.literal 12) .var⟩
  have hzero : quotient.expr.eval (Word.toValue 0) = .error .divisionByZero := by decide
  have hfour : quotient.expr.eval (Word.toValue 3) = .ok 4 := by decide
  have hbelow : Computation.applyOptional
      (some ⟨"bits - 1", .bits, .binary .sub .var (.literal 1)⟩) (Word.toValue 0) = .ok (-1) := by
    decide
  refine ⟨(hagree _ _ hhigh).1, (hfails _ _).1.2 ?_, (hfails _ _).1.2 ?_⟩
  · refine .here ?_
    exact .fault (c := quotient) rfl hzero
  · refine .later (fun e h => ?_) (.here ?_)
    · cases h with
      | fault hc heval =>
        cases hc
        cases hfour.symm.trans heval
      | negative hsubject => cases hsubject
    · exact .negative rfl hbelow (by decide)

end OperandCodec
