import Mathlib.Computability.Language
import Mathlib.Tactic.Common
import OperandCodec.Proofs.Compiled
import OperandCodec.Proofs.Validity
/-!
# What opcodes are made of

An opcode is made from a record and then revised any number of times. Each
step checks the whole record anew, argument by argument and in a fixed
order; together they accept exactly the records that satisfy the
constraints (`construction_exact`), of which none speaks of an order. What
follows for every opcode is put together here: how many arguments there can
be, and when the inputs are variadic. The names are said twice, by the
characters that are looked at and by the patterns that they match.
-/

namespace OperandCodec

/-! ## Names -/

section Names

open Computability

/-- The texts of a single character of a class. -/
def single (p : Char → Bool) : Language Char :=
  {s : List Char | ∃ c, p c ∧ s = [c]}

/-- The pattern of opcode names, `[A-Za-z_][0-9A-Za-z\-_]*`. -/
def opcodeNames : Language Char :=
  single isNameStart * (single isNameRest)∗

/-- The pattern of argument names, `[A-Za-z0-9_][A-Za-z0-9\-_\s]*[A-Za-z0-9\-_]`. -/
def argumentNames : Language Char :=
  single (fun c => c.isAlphanum || c == '_') *
    (single fun c => isNameRest c || Text.isBlank c)∗ * single isNameRest

theorem mem_single_mul_iff {p : Char → Bool} {l : Language Char} {s : List Char} :
    s ∈ single p * l ↔ ∃ c cs, s = c :: cs ∧ p c ∧ cs ∈ l := by
  rw [Language.mem_mul]
  constructor
  · rintro ⟨_, ⟨c, hc, rfl⟩, cs, hcs, rfl⟩
    exact ⟨c, cs, rfl, hc, hcs⟩
  · rintro ⟨c, cs, rfl, hc, hcs⟩
    exact ⟨[c], ⟨c, hc, rfl⟩, cs, hcs, rfl⟩

theorem mem_mul_single_iff {p : Char → Bool} {l : Language Char} {s : List Char} :
    s ∈ l * single p ↔ ∃ cs c, s = cs ++ [c] ∧ cs ∈ l ∧ p c := by
  rw [Language.mem_mul]
  constructor
  · rintro ⟨cs, hcs, _, ⟨c, hc, rfl⟩, rfl⟩
    exact ⟨cs, c, rfl, hcs, hc⟩
  · rintro ⟨cs, c, rfl, hcs, hc⟩
    exact ⟨cs, hcs, [c], ⟨c, hc, rfl⟩, rfl⟩

/-- A repetition of single characters is a text of such characters. -/
theorem mem_kstar_single_iff {p : Char → Bool} {s : List Char} :
    s ∈ (single p)∗ ↔ ∀ c ∈ s, p c := by
  rw [Language.mem_kstar]
  constructor
  · rintro ⟨parts, rfl, hparts⟩ c hc
    obtain ⟨part, hpart, hc⟩ := List.mem_flatten.1 hc
    obtain ⟨c', hc', rfl⟩ := hparts part hpart
    rwa [List.mem_singleton.1 hc]
  · intro h
    refine ⟨s.map fun c => [c], by simp [← List.flatMap_def], fun part hpart => ?_⟩
    obtain ⟨c, hc, rfl⟩ := List.mem_map.1 hpart
    exact ⟨c, h c hc, rfl⟩

/-- **Opcode names are the texts that match their pattern.** -/
theorem isOpcodeName_iff {s : String} : isOpcodeName s ↔ s.toList ∈ opcodeNames := by
  rw [opcodeNames, mem_single_mul_iff]
  unfold isOpcodeName
  cases s.toList with
  | nil => simp
  | cons c cs => simp [mem_kstar_single_iff]

/-- **So are argument names**, of which the last character is looked at by itself. -/
theorem isArgumentName_iff {s : String} : isArgumentName s ↔ s.toList ∈ argumentNames := by
  rw [argumentNames, mul_assoc, mem_single_mul_iff]
  unfold isArgumentName
  cases s.toList with
  | nil => simp
  | cons c cs =>
    cases cs using List.reverseRecOn with
    | nil => simp [mem_mul_single_iff]
    | append_singleton cs d =>
      simp [mem_mul_single_iff, mem_kstar_single_iff, and_assoc]

end Names

/-! ## Valid records -/

namespace Record.Valid

variable {r : Record}

/-- The first positions of the arguments are distinct, and there are sixteen positions. -/
theorem length_arguments_le (h : r.Valid) : r.arguments.length ≤ 16 := by
  have hdistinct : (r.arguments.map (·.bits.lo)).Nodup := by
    refine List.pairwise_map.2 (h.apart.imp fun {a b} hab heq => ?_)
    -- the first position of `a` belongs to `a`, so it cannot be one of `b`
    refine hab.bits a.bits.lo ⟨le_refl _, a.bits.lo_le_hi⟩ ?_
    rw [heq]
    exact ⟨le_refl _, b.bits.lo_le_hi⟩
  have hbound : r.arguments.map (·.bits.lo) ⊆ List.range 16 := by
    intro i hi
    obtain ⟨a, -, rfl⟩ := List.mem_map.1 hi
    exact List.mem_range.2 (lt_of_le_of_lt a.bits.lo_le_hi a.bits.hi_lt)
  have hlength := (List.subperm_of_subset hdistinct hbound).length_le
  rwa [List.length_map, List.length_range] at hlength

/-- At most one argument takes the number of inputs. -/
theorem length_inputs_le (h : r.Valid) : (r.arguments.filter (·.isInputs)).length ≤ 1 := by
  have hapart := h.apart.filter (·.isInputs)
  have hinputs : ∀ a ∈ r.arguments.filter (·.isInputs), a.name = inputsName := fun a ha =>
    beq_iff_eq.1 (List.mem_filter.1 ha).2
  cases hargs : r.arguments.filter (·.isInputs) with
  | nil => exact Nat.zero_le 1
  | cons a as =>
    cases as with
    | nil => exact le_refl 1
    | cons b as =>
      -- two of them would have the same name
      rw [hargs] at hapart hinputs
      obtain ⟨ha, hb, -⟩ := List.forall_mem_cons.1 hinputs |>.imp id List.forall_mem_cons.1
      have hab := (List.pairwise_cons.1 hapart).1 b List.mem_cons_self
      exact absurd (ha.trans hb.symm) hab.name

end Record.Valid

/-- Where only the last parameter may be spread, the last one is if any is. -/
theorem InputArity.isVariadic_iff {count : Nat} {params : List Parameter}
    (h : ∀ p ∈ params.dropLast, p.spread = false) :
    (InputArity.mk count params).isVariadic ↔ ∃ p ∈ params, p.spread := by
  unfold isVariadic
  cases params using List.reverseRecOn with
  | nil => simp
  | append_singleton ps p =>
    rw [List.dropLast_concat] at h
    simp only [List.getLast?_concat, Option.any_some, List.mem_append, List.mem_singleton]
    constructor
    · exact fun hp => ⟨p, .inr rfl, hp⟩
    · rintro ⟨q, hq | rfl, hspread⟩
      · exact absurd hspread (by simp [h q hq])
      · exact hspread

/-- **Valid inputs are variadic exactly where a fixed parameter is spread**, at every word. -/
theorem Inputs.Valid.variadic_iff {inputs : Inputs} (h : inputs.Valid) (w : Option Word) :
    (∃ a, inputs.resolve w = .ok a ∧ a.isVariadic) ↔
      ∃ params, inputs = .fixed params ∧ ∃ p ∈ params, p.spread := by
  cases inputs with
  | zero => simp [Inputs.resolve, InputArity.isVariadic]
  | fixed params => simp [Inputs.resolve, InputArity.isVariadic_iff h.2]
  | computed bits c =>
    -- a count that is read from bits comes without parameters
    cases hcount : computedCount .inputs bits c w <;>
      simp [Inputs.resolve, hcount, Except.map, InputArity.isVariadic]

/-! ## Making and revising opcodes -/

namespace Opcode

/-- An opcode is its record. -/
theorem eq_of_record_eq {op op' : Opcode} (h : op.toRecord = op'.toRecord) : op = op' := by
  cases op
  cases op'
  cases h
  rfl

/-- **A record makes an opcode exactly if it is valid.** -/
theorem ofRecord_eq_ok_iff {r : Record} {op : Opcode} :
    ofRecord r = .ok op ↔ r.Valid ∧ op.toRecord = r := by
  constructor
  · intro h
    have hrecord := record_of_ofRecord h
    exact ⟨hrecord ▸ op.valid, hrecord⟩
  · rintro ⟨hvalid, rfl⟩
    unfold ofRecord
    split
    · rfl
    · rename_i flaw hflaw
      rw [op.sound] at hflaw
      cases hflaw

/-- Revising leaves a valid record valid if the aliases that it brings are opcode names. -/
theorem valid_aliases_iff {op : Opcode} {aliases : List String} :
    Record.Valid { op.toRecord with aliases } ↔ ∀ n ∈ aliases, isOpcodeName n := by
  have hop := op.valid
  constructor
  · exact fun h n hn => h.names n (List.mem_cons_of_mem _ hn)
  · intro h
    refine ⟨List.forall_mem_cons.2 ⟨hop.names _ List.mem_cons_self, h⟩, ?_, ?_, ?_, ?_⟩
    · exact hop.arguments
    · exact hop.apart
    · exact hop.inputs
    · exact hop.outputs

end Opcode

/-- A way to go on from an opcode. -/
inductive Revision where
  | desc (desc : String)
  | aliases (aliases : List String)

/-- The record after a revision. -/
def Record.revised (r : Record) : Revision → Record
  | .desc desc => { r with desc }
  | .aliases aliases => { r with aliases }

/-- The names that a revision brings. -/
def Revision.names : Revision → List String
  | desc _ => []
  | aliases names => names

namespace Opcode

/-- The opcode after a revision. -/
def revise (op : Opcode) : Revision → Except Error Opcode
  | .desc desc => .ok (op.withDesc desc)
  | .aliases aliases => op.withAliases aliases

/-- The opcode that is made from a record and then revised in turn. -/
def ofRevisions (r : Record) (revisions : List Revision) : Except Error Opcode := do
  revisions.foldlM revise (← ofRecord r)

/-- One revision succeeds exactly if it brings nothing but opcode names, and does what it says. -/
theorem revise_eq_ok_iff {op op' : Opcode} {revision : Revision} :
    op.revise revision = .ok op' ↔
      (∀ n ∈ revision.names, isOpcodeName n) ∧ op'.toRecord = op.toRecord.revised revision := by
  cases revision with
  | desc desc =>
    constructor
    · intro h
      obtain rfl := Except.ok.inj h
      exact ⟨List.forall_mem_nil _, rfl⟩
    · rintro ⟨-, h⟩
      exact congrArg _ (eq_of_record_eq h.symm)
  | aliases aliases =>
    rw [revise, withAliases, ofRecord_eq_ok_iff, valid_aliases_iff]
    rfl

/-- A revision that brings nothing but opcode names succeeds. -/
theorem exists_revise (op : Opcode) {revision : Revision}
    (h : ∀ n ∈ revision.names, isOpcodeName n) : ∃ op', op.revise revision = .ok op' := by
  cases revision with
  | desc desc => exact ⟨_, rfl⟩
  | aliases aliases =>
    have hvalid : Record.Valid { op.toRecord with aliases } := valid_aliases_iff.2 h
    exact ⟨⟨_, Record.flaw?_eq_none_iff.2 hvalid⟩, ofRecord_eq_ok_iff.2 ⟨hvalid, rfl⟩⟩

/-- So do any number of them. -/
theorem foldlM_revise_eq_ok_iff {op op' : Opcode} {revisions : List Revision} :
    revisions.foldlM revise op = .ok op' ↔
      (∀ v ∈ revisions, ∀ n ∈ v.names, isOpcodeName n) ∧
        op'.toRecord = revisions.foldl Record.revised op.toRecord := by
  induction revisions generalizing op with
  | nil =>
    rw [List.foldlM_nil, List.foldl_nil]
    constructor
    · intro h
      obtain rfl := Except.ok.inj h
      exact ⟨List.forall_mem_nil _, rfl⟩
    · rintro ⟨-, h⟩
      exact congrArg _ (eq_of_record_eq h.symm)
  | cons v vs ih =>
    rw [List.foldlM_cons, bind_eq_ok_iff, List.forall_mem_cons, List.foldl_cons]
    constructor
    · rintro ⟨op₁, hv, hvs⟩
      obtain ⟨hnames, hrecord⟩ := revise_eq_ok_iff.1 hv
      obtain ⟨hnames', hrecord'⟩ := ih.1 hvs
      exact ⟨⟨hnames, hnames'⟩, by rw [hrecord', hrecord]⟩
    · rintro ⟨⟨hnames, hnames'⟩, hrecord⟩
      obtain ⟨op₁, hv⟩ := exists_revise op hnames
      have hop₁ := (revise_eq_ok_iff.1 hv).2
      exact ⟨op₁, hv, ih.2 ⟨hnames', by rw [hrecord, hop₁]⟩⟩

/-- **Making and revising succeeds exactly for a valid record and well-formed aliases**, with the
record as it is revised. -/
theorem ofRevisions_eq_ok_iff {r : Record} {revisions : List Revision} {op : Opcode} :
    ofRevisions r revisions = .ok op ↔
      r.Valid ∧ (∀ v ∈ revisions, ∀ n ∈ v.names, isOpcodeName n) ∧
        op.toRecord = revisions.foldl Record.revised r := by
  rw [ofRevisions, bind_eq_ok_iff]
  constructor
  · rintro ⟨op₀, h₀, h⟩
    obtain ⟨hvalid, rfl⟩ := ofRecord_eq_ok_iff.1 h₀
    exact ⟨hvalid, foldlM_revise_eq_ok_iff.1 h⟩
  · rintro ⟨hvalid, h⟩
    have h₀ : ofRecord r = .ok ⟨r, Record.flaw?_eq_none_iff.2 hvalid⟩ :=
      ofRecord_eq_ok_iff.2 ⟨hvalid, rfl⟩
    exact ⟨_, h₀, foldlM_revise_eq_ok_iff.2 h⟩

end Opcode

/-- An outcome that is the opcode of a record where the record is valid, and an error where it is
not. -/
structure MadeOf (r : Record) (outcome : Except Error Opcode) : Prop where
  ok_iff : (∃ op, outcome = .ok op) ↔ r.Valid
  record : ∀ op, outcome = .ok op → op.toRecord = r

theorem madeOf_ofRecord (r : Record) : MadeOf r (Opcode.ofRecord r) where
  ok_iff := by
    constructor
    · rintro ⟨op, h⟩
      exact (Opcode.ofRecord_eq_ok_iff.1 h).1
    · intro h
      exact ⟨⟨r, Record.flaw?_eq_none_iff.2 h⟩, Opcode.ofRecord_eq_ok_iff.2 ⟨h, rfl⟩⟩
  record _ h := Opcode.record_of_ofRecord h

/-- **Opcodes are made exactly of the valid records.** From its parts, with a layout alone or with
other aliases, an opcode comes out if and only if the record satisfies all constraints, and it is
then that record. Whatever is made and revised in any number of steps is valid; it has at most
sixteen arguments, of which at most one takes the number of inputs, and its inputs are variadic
where one of its fixed parameters is spread. -/
theorem construction_exact :
    (∀ s, (isOpcodeName s ↔ s.toList ∈ opcodeNames) ∧
      (isArgumentName s ↔ s.toList ∈ argumentNames)) ∧
    (∀ r, MadeOf r (Opcode.ofRecord r)) ∧
    (∀ name operand inputs outputs, MadeOf ⟨name, "", operand, inputs, outputs, []⟩
      (Opcode.ofLayout name operand inputs outputs)) ∧
    (∀ (op : Opcode) aliases,
      MadeOf { op.toRecord with aliases } (op.withAliases aliases)) ∧
    ∀ r revisions op, Opcode.ofRevisions r revisions = .ok op →
      op.toRecord = revisions.foldl Record.revised r ∧ op.toRecord.Valid ∧
        op.arguments.length ≤ 16 ∧ (op.arguments.filter (·.isInputs)).length ≤ 1 ∧
        ∀ w, (∃ a, op.inputs.resolve w = .ok a ∧ a.isVariadic) ↔
          ∃ params, op.inputs = .fixed params ∧ ∃ p ∈ params, p.spread := by
  refine ⟨fun s => ⟨isOpcodeName_iff, isArgumentName_iff⟩, madeOf_ofRecord,
    fun _ _ _ _ => madeOf_ofRecord _, fun op aliases => madeOf_ofRecord _,
    fun r revisions op h => ?_⟩
  have hrecord := (Opcode.ofRevisions_eq_ok_iff.1 h).2.2
  have hop := op.valid
  exact ⟨hrecord, hop, hop.length_arguments_le, hop.length_inputs_le, hop.inputs.variadic_iff⟩

/-- An opcode with a spread parameter that is described and gets an alias, which it did not have
when it was made. -/
theorem construction_exact_of_spread :
    let bits : BitRange := { lo := 0, hi := 1 }
    let params : List Parameter := [⟨"base", none, false⟩, ⟨"values", none, true⟩]
    let r : Record :=
      ⟨"sum", "", .arguments [⟨"inputs", none, bits, none, none⟩], .fixed params, .fixed 1, []⟩
    ∃ op, Opcode.ofRevisions r [.desc "Adds", .aliases ["plus", "add-all"]] = .ok op ∧
      op.toRecord = { r with desc := "Adds", aliases := ["plus", "add-all"] } ∧
        op.arguments.length ≤ 16 ∧ ∃ a, op.inputs.resolve none = .ok a ∧ a.isVariadic := by
  intro bits params r
  have hvalid : r.Valid := Record.flaw?_eq_none_iff.1 (by decide +kernel)
  have hop : Record.Valid { r with desc := "Adds", aliases := ["plus", "add-all"] } :=
    Record.flaw?_eq_none_iff.1 (by decide +kernel)
  have hmade : Opcode.ofRevisions r [.desc "Adds", .aliases ["plus", "add-all"]] =
      .ok ⟨_, Record.flaw?_eq_none_iff.2 hop⟩ :=
    Opcode.ofRevisions_eq_ok_iff.2 ⟨hvalid, by decide +kernel, rfl⟩
  obtain ⟨hrecord, -, hlength, -, hvariadic⟩ := construction_exact.2.2.2.2 _ _ _ hmade
  exact ⟨_, hmade, hrecord, hlength,
    (hvariadic none).2 ⟨params, rfl, ⟨"values", none, true⟩, by decide +kernel, rfl⟩⟩

end OperandCodec
