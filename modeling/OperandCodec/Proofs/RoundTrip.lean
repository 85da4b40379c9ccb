import Mathlib.Tactic.Common
import OperandCodec.Proofs.Decode
import OperandCodec.Proofs.Encode
import OperandCodec.Proofs.Validity
/-!
# Reading what was built

A built word holds, under each argument, a raw value that decodes to what
was asked for, also where the computation is not injective. So the values
that come back are those that went in, and only the computed arities, which
nobody asked for, can still refuse the word (`read_of_build`).
-/

namespace OperandCodec

/-- What a word gives back of a request: every argument decodes to the value asked for, reading
lists these values and no others, and only a computed arity refuses the word. -/
structure ReadsBack (op : Opcode) (args : Assignment) (n : Nat) (w : Word) : Prop where
  decoded : ∀ a ∈ op.arguments, ∃ v, a.Asks args n v ∧
    Computation.applyOptional a.computation (w.unpack a.bits).toValue = .ok v
  /-- Each name occurs once, and the values are those asked for. -/
  read : ∀ d, op.read w = .ok d → d.arguments.Pairwise (fun p q => p.1 < q.1) ∧
    ∀ name v, (name, v) ∈ d.arguments ↔ ∃ a ∈ op.arguments, a.name = name ∧ a.Asks args n v
  refused : ∀ e, op.read w = .error e →
    (∃ f, op.inputs.resolve w = .error f ∧ e = f.inPlace ⟨op.name, .computed .inputs⟩) ∨
      ∃ f, op.outputs.resolve w = .error f ∧ e = f.inPlace ⟨op.name, .computed .outputs⟩

variable {op : Opcode} {args : Assignment} {n : Nat} {w : Word} {a : Argument}

/-- In a built word every argument decodes to what it is asked for. -/
theorem exists_decode_of_build (h : afresh (op.build args n) = .ok w) (ha : a ∈ op.arguments) :
    ∃ v, a.Asks args n v ∧ a.decode w = .ok v :=
  (Record.encodes_of_build op.valid.apart h).decoded a ha

/-- In a built word an argument decodes to a value exactly where that value was asked for. -/
theorem decode_eq_ok_iff_asks (h : afresh (op.build args n) = .ok w) (ha : a ∈ op.arguments)
    {v : Value} : a.decode w = .ok v ↔ a.Asks args n v := by
  obtain ⟨v', hask, hdec⟩ := exists_decode_of_build h ha
  rw [hdec, Except.ok.injEq]
  constructor
  · rintro rfl
    exact hask
  · exact hask.unique

/-- The names of an opcode's arguments are distinct. -/
theorem nodup_argument_names (op : Opcode) : (op.arguments.map (·.name)).Nodup :=
  op.valid.nodup_names

/-- **What was asked for is read again.** -/
theorem read_of_build (op : Opcode) (args : Assignment) (n : Nat) (w : Word)
    (h : afresh (op.build args n) = .ok w) : ReadsBack op args n w := by
  obtain ⟨vs, hvs⟩ := Record.exists_values fun a ha =>
    (exists_decode_of_build h ha).imp fun v hv => hv.2
  -- the values are there in any case, so reading goes on to the arities
  have hread := Record.read_of_values hvs
  refine ⟨fun a ha => exists_decode_of_build h ha, fun d hd => ?_, fun e he => ?_⟩
  · rw [hread] at hd
    simp only [bind_eq_ok_iff, mapError_eq_ok_iff] at hd
    obtain ⟨inputs, -, outputs, -, hd⟩ := hd
    obtain rfl := Except.ok.inj hd
    refine ⟨sortByName_ascending ?_, fun name v => ?_⟩
    · rw [Record.names_of_values hvs]
      exact nodup_argument_names op
    · rw [mem_sortByName, Record.mem_values hvs]
      refine exists_congr fun a => and_congr_right fun ha => and_congr_right fun _ => ?_
      exact decode_eq_ok_iff_asks h ha
  · rw [hread] at he
    cases hinputs : op.inputs.resolve w with
    | error f =>
      rw [hinputs] at he
      exact Or.inl ⟨f, rfl, (Except.error.inj he).symm⟩
    | ok inputs =>
      cases houtputs : op.outputs.resolve w with
      | error f =>
        rw [hinputs, houtputs] at he
        exact Or.inr ⟨f, rfl, (Except.error.inj he).symm⟩
      | ok outputs =>
        rw [hinputs, houtputs] at he
        cases he

/-- An opcode whose first argument is halved, so that two raw values have each logical value; the
valid range leaves one of `6` and `7`. -/
def halvingOpcode : Opcode where
  name := "call"
  desc := ""
  operand := .arguments [
    ⟨"half", none, { lo := 0, hi := 3 }, some ⟨"arg / 2", .arg, .binary .div .var (.literal 2)⟩,
      some ⟨[.interval 0 6]⟩⟩,
    ⟨"inputs", none, { lo := 4, hi := 7 }, none, none⟩]
  inputs := .computed { lo := 4, hi := 7 } none
  outputs := .fixed 1
  aliases := []
  sound := by decide

theorem read_of_build_halving :
    afresh (halvingOpcode.build (.ofPairs [("half", 3)]) 5) = .ok 0x56 ∧
      ReadsBack halvingOpcode (.ofPairs [("half", 3)]) 5 0x56 := by
  have h : afresh (halvingOpcode.build (.ofPairs [("half", 3)]) 5) = .ok 0x56 := by decide
  exact ⟨h, read_of_build _ _ _ _ h⟩

end OperandCodec
