import Mathlib.Data.List.Pairwise
import Mathlib.Tactic.Common
import OperandCodec.Record.Valid
/-!
# The check of records is exact

`Record.flaw?` looks at the constraints in a fixed order and reports the
first violation. It reports none exactly for the records that satisfy all
of them (`Record.flaw?_eq_none_iff`), so what an opcode carries is
`Record.Valid`, which names no order.
-/

namespace OperandCodec

theorem variableFlaw?_eq_none_iff {v : Variable} {c : Option Computation} :
    variableFlaw? v c = none ↔ IsOver v c := by
  cases c with
  | none => simp [variableFlaw?, IsOver]
  | some c => simp [variableFlaw?, IsOver]

theorem validRangeFlaw?_eq_none_iff {name : String} {r : Option ValidRange} :
    validRangeFlaw? name r = none ↔ ∀ x ∈ r, x.Valid := by
  cases r with
  | none => simp [validRangeFlaw?]
  | some r =>
    simp only [validRangeFlaw?, Option.mem_some_iff, forall_eq']
    split
    · rename_i hempty
      simp only [reduceCtorEq, false_iff]
      exact fun h => h.ne_nil (List.isEmpty_iff.1 hempty)
    · rename_i hne
      rw [Option.map_eq_none_iff, List.find?_eq_none]
      constructor
      · intro h
        refine ⟨fun hnil => hne (List.isEmpty_iff.2 hnil), fun e he => ?_⟩
        exact RangeEntry.isInverted_eq_false_iff.1 (Bool.eq_false_iff.2 (h e he))
      · intro h e he
        exact Bool.eq_false_iff.1 (RangeEntry.isInverted_eq_false_iff.2 (h.ordered e he))

namespace Argument

/-- Ranges that do not overlap have no position in common. -/
theorem overlaps_eq_false_iff {b c : BitRange} :
    b.overlaps c = false ↔ ∀ i, i ∈ b → i ∉ c := by
  rw [Bool.eq_false_iff, ne_eq, BitRange.overlaps_iff]
  push Not
  rfl

theorem Apart.symm {a b : Argument} (h : Apart a b) : Apart b a :=
  ⟨h.name.symm, fun i hib hia => h.bits i hia hib⟩

/-- Arguments of a list that are not the same are apart, whichever comes first. -/
theorem Apart.of_mem {as : List Argument} (has : as.Pairwise Apart) {a b : Argument} (ha : a ∈ as)
    (hb : b ∈ as) (hab : a ≠ b) : Apart a b := by
  have : Std.Symm Apart := ⟨fun _ _ h => h.symm⟩
  exact has.forall ha hb hab

/-- **One argument is checked by itself and against each argument before it.** -/
theorem flaw?_eq_none_iff {earlier : List Argument} {a : Argument} :
    a.flaw? earlier = none ↔ a.Valid ∧ ∀ e ∈ earlier, Apart e a := by
  -- the splits follow the order of the checks: the name, its repetition, then the overlap
  unfold flaw?
  split
  · rename_i hname
    simp only [reduceCtorEq, false_iff]
    exact fun h => by simp [h.1.name] at hname
  rename_i hname
  split
  · rename_i hrep
    obtain ⟨e, he, hea⟩ := List.any_eq_true.1 hrep
    simp only [reduceCtorEq, false_iff]
    exact fun h => (h.2 e he).name (beq_iff_eq.1 hea)
  rename_i hrep
  split
  · rename_i other hfind
    have hmem := List.mem_of_find?_eq_some hfind
    have hover := List.find?_some hfind
    simp only [reduceCtorEq, false_iff]
    exact fun h => by simp [overlaps_eq_false_iff.2 (h.2 other hmem).bits] at hover
  · rename_i hfind
    have hnames : ∀ e ∈ earlier, e.name ≠ a.name := fun e he hea =>
      hrep (List.any_eq_true.2 ⟨e, he, beq_iff_eq.2 hea⟩)
    have hbits : ∀ e ∈ earlier, e.bits.overlaps a.bits = false := fun e he =>
      Bool.eq_false_iff.2 (List.find?_eq_none.1 hfind e he)
    rw [Option.orElse_eq_orElse, Option.orElse_eq_or, Option.or_eq_none_iff,
      variableFlaw?_eq_none_iff, validRangeFlaw?_eq_none_iff]
    constructor
    · rintro ⟨hvar, hrange⟩
      exact ⟨⟨by simpa using hname, hvar, hrange⟩,
        fun e he => ⟨hnames e he, overlaps_eq_false_iff.1 (hbits e he)⟩⟩
    · exact fun h => ⟨h.1.computation, h.1.validRange⟩

/-- **A list of arguments is checked in turn**: each by itself, against the arguments before the
list, and against those before it in the list. -/
theorem firstFlaw?_eq_none_iff {earlier args : List Argument} :
    firstFlaw? earlier args = none ↔ (∀ a ∈ args, a.Valid) ∧
      (∀ e ∈ earlier, ∀ a ∈ args, Apart e a) ∧ args.Pairwise Apart := by
  induction args generalizing earlier with
  | nil => simp [firstFlaw?]
  | cons a args ih =>
    rw [firstFlaw?, Option.orElse_eq_orElse, Option.orElse_eq_or, Option.or_eq_none_iff,
      flaw?_eq_none_iff, ih]
    -- the next arguments are checked against the earlier ones and this one
    have hsnoc : (∀ e ∈ earlier ++ [a], ∀ x ∈ args, Apart e x) ↔
        (∀ e ∈ earlier, ∀ x ∈ args, Apart e x) ∧ ∀ x ∈ args, Apart a x := by
      simp only [List.forall_mem_append, List.forall_mem_singleton]
    rw [hsnoc, List.pairwise_cons, List.forall_mem_cons]
    simp only [List.forall_mem_cons]
    constructor
    · rintro ⟨⟨ha, hea⟩, hargs, ⟨hearlier, haargs⟩, hpair⟩
      exact ⟨⟨ha, hargs⟩, fun e he => ⟨hea e he, hearlier e he⟩, haargs, hpair⟩
    · rintro ⟨⟨ha, hargs⟩, hearlier, haargs, hpair⟩
      exact ⟨⟨ha, fun e he => (hearlier e he).1⟩, hargs,
        ⟨fun e he => (hearlier e he).2, haargs⟩, hpair⟩

end Argument

theorem Parameter.firstFlaw?_eq_none_iff {params : List Parameter} :
    Parameter.firstFlaw? params = none ↔ (∀ p ∈ params, isArgumentName p.name) ∧
      ∀ p ∈ params.dropLast, p.spread = false := by
  induction params with
  | nil => simp [firstFlaw?]
  | cons p ps ih =>
    unfold firstFlaw?
    split
    · rename_i hname
      simp only [reduceCtorEq, false_iff]
      exact fun h => by simp [h.1 p List.mem_cons_self] at hname
    rename_i hname
    have hp : isArgumentName p.name := by simpa using hname
    split
    · rename_i hspread
      obtain ⟨hspread, hne⟩ := Bool.and_eq_true_iff.1 hspread
      simp only [reduceCtorEq, false_iff]
      intro h
      have hps : ps ≠ [] := by simpa using hne
      have := h.2 p (by simp [List.dropLast_cons_of_ne_nil hps])
      rw [hspread] at this
      exact Bool.noConfusion this
    · rename_i hspread
      rw [ih, List.forall_mem_cons]
      cases ps with
      | nil => simp [hp]
      | cons q qs =>
        have hp' : p.spread = false := by simpa using hspread
        have hdrop : (∀ x ∈ (p :: q :: qs).dropLast, x.spread = false) ↔
            p.spread = false ∧ ∀ x ∈ (q :: qs).dropLast, x.spread = false := by
          rw [List.dropLast_cons_cons, List.forall_mem_cons]
        rw [hdrop]
        exact ⟨fun h => ⟨⟨hp, h.1⟩, hp', h.2⟩, fun h => ⟨h.1.2, h.2.2⟩⟩

theorem Inputs.flaw?_eq_none_iff {inputs : Inputs} : inputs.flaw? = none ↔ inputs.Valid := by
  cases inputs with
  | zero => simp [flaw?, Valid]
  | fixed params => exact Parameter.firstFlaw?_eq_none_iff
  | computed bits c => exact variableFlaw?_eq_none_iff

theorem Outputs.flaw?_eq_none_iff {outputs : Outputs} :
    outputs.flaw? = none ↔ outputs.Valid := by
  cases outputs with
  | fixed count => simp [flaw?, Valid]
  | computed bits c => exact variableFlaw?_eq_none_iff

/-- **No flaw is reported exactly for the valid records.** -/
theorem Record.flaw?_eq_none_iff {r : Record} : r.flaw? = none ↔ r.Valid := by
  simp only [flaw?, Option.orElse_eq_orElse, Option.orElse_eq_or, Option.or_eq_none_iff,
    Option.map_eq_none_iff, List.find?_eq_none, Argument.firstFlaw?_eq_none_iff,
    Inputs.flaw?_eq_none_iff, Outputs.flaw?_eq_none_iff]
  constructor
  · rintro ⟨hnames, ⟨hargs, -, hapart⟩, hinputs, houtputs⟩
    exact ⟨fun n hn => by simpa using hnames n hn, hargs, hapart, hinputs, houtputs⟩
  · intro h
    exact ⟨fun n hn => by simp [h.names n hn], ⟨h.arguments, by simp, h.apart⟩, h.inputs,
      h.outputs⟩

/-- The arguments of a valid record have distinct names. -/
theorem Record.Valid.nodup_names {r : Record} (h : r.Valid) :
    (r.arguments.map (·.name)).Nodup :=
  List.pairwise_map.2 (h.apart.imp fun hab => hab.name)

/-- An opcode is a valid record. -/
theorem Opcode.valid (op : Opcode) : op.toRecord.Valid :=
  Record.flaw?_eq_none_iff.1 op.sound

end OperandCodec
