import Mathlib.Tactic.Common
import OperandCodec.Proofs.Afresh
import OperandCodec.Record.Decode
import OperandCodec.Record.Valid
/-!
# What reading gives

Reading decodes the arguments in turn and then resolves the two arities. The
values are one for each argument (`values_eq_ok_iff`), and since no two
arguments share a name, sorting them by name gives a map
(`sortByName_ascending`).
-/

namespace OperandCodec

/-- Pairs sorted by name, as a decoded word lists its values. -/
def sortByName (vs : List (String × Value)) : List (String × Value) :=
  vs.mergeSort fun a b => a.1 ≤ b.1

/-- The values that are rendered, in declaration order. -/
def Record.shown (r : Record) (d : Decoded) : List Value :=
  (r.arguments.filter (!·.isInputs)).filterMap fun a => d.arguments.lookup a.name

/-- The name of an opcode with rendered values. -/
def rendered (name : String) (vs : List Value) : String :=
  if vs.isEmpty then name else s!"{name}<" ++ " ".intercalate (vs.map Value.text) ++ ">"

theorem mem_sortByName {vs : List (String × Value)} {p : String × Value} :
    p ∈ sortByName vs ↔ p ∈ vs :=
  List.mem_mergeSort

/-- Pairs with distinct names are sorted strictly, so each name has one place. -/
theorem sortByName_ascending {vs : List (String × Value)} (h : (vs.map (·.1)).Nodup) :
    (sortByName vs).Pairwise fun p q => p.1 < q.1 := by
  have hle : (sortByName vs).Pairwise fun p q => p.1 ≤ q.1 := by
    refine (List.pairwise_mergeSort ?_ ?_ vs).imp fun hpq => of_decide_eq_true hpq
    · exact fun p q r hpq hqr =>
        decide_eq_true (String.le_trans (of_decide_eq_true hpq) (of_decide_eq_true hqr))
    · intro p q
      rcases String.le_total p.1 q.1 with hpq | hqp
      · simp [hpq]
      · simp [hqp]
  have hne : (sortByName vs).Pairwise fun p q => p.1 ≠ q.1 := by
    have hperm := (List.mergeSort_perm vs fun a b => decide (a.1 ≤ b.1)).map (·.1)
    exact List.pairwise_map.1 (hperm.nodup_iff.2 h)
  refine (hle.and hne).imp fun {p q} hpq => ?_
  rw [← String.not_le]
  exact fun hqp => hpq.2 (String.le_antisymm hpq.1 hqp)

/-- The count of a computed arity at a word is the value of its content, unless that is negative. -/
theorem computedCount_some {arity : Arity} {bits : BitRange} {c : Option Computation} {w : Word} :
    computedCount arity bits c (some w) =
      Computation.applyOptional c (w.unpack bits).toValue >>= fun count =>
        if count.toInt < 0 then
          .error (.range (.negativeCount arity count (w.unpack bits)) none)
        else .ok count.toInt.toNat := by
  show (Computation.applyOptional c (w.unpack bits).toValue >>= fun count => _) = _
  refine bind_congr fun count => ?_
  split <;> rfl

/-- **A sorted list of pairs with distinct names does not show the order they came in.** -/
theorem sortByName_eq_of_perm {vs vs' : List (String × Value)} (h : vs.Perm vs')
    (hnodup : (vs.map (·.1)).Nodup) : sortByName vs = sortByName vs' := by
  have hnodup' : (vs'.map (·.1)).Nodup := (h.map _).nodup_iff.1 hnodup
  have hperm : (sortByName vs).Perm (sortByName vs') :=
    (List.mergeSort_perm vs _).trans (h.trans (List.mergeSort_perm vs' _).symm)
  refine hperm.eq_of_pairwise (fun p q _ _ hpq hqp => ?_) (sortByName_ascending hnodup)
    (sortByName_ascending hnodup')
  exact absurd hqp (String.lt_asymm hpq)

namespace Record

variable {r : Record} {w : Word} {vs : List (String × Value)}

/-- **The values are those of the arguments, each under its name.** -/
theorem values_eq_ok_iff : r.values w = .ok vs ↔
    List.Forall₂ (fun a p => a.decode w = .ok p.2 ∧ p.1 = a.name) r.arguments vs := by
  have hstep : ∀ (a : Argument) (p : String × Value),
      (do
        let v ← (a.decode w).mapError (·.inPlace ⟨r.name, .argument a.name⟩)
        return (a.name, v) : Except Error _) = .ok p ↔ a.decode w = .ok p.2 ∧ p.1 = a.name := by
    rintro a ⟨name, v⟩
    rw [bind_eq_ok_iff]
    simp only [mapError_eq_ok_iff]
    constructor
    · rintro ⟨v', hv', h⟩
      cases h
      exact ⟨hv', rfl⟩
    · rintro ⟨hv, rfl⟩
      exact ⟨v, hv, rfl⟩
  rw [values, mapM_eq_ok_iff]
  simp only [hstep]

/-- The names of the values are those of the arguments. -/
theorem names_of_values (h : r.values w = .ok vs) :
    vs.map (·.1) = r.arguments.map (·.name) := by
  rw [values_eq_ok_iff] at h
  generalize r.arguments = as at h ⊢
  induction h with
  | nil => rfl
  | cons hp _ ih => rw [List.map_cons, List.map_cons, hp.2, ih]

theorem mem_values (h : r.values w = .ok vs) {name : String} {v : Value} :
    (name, v) ∈ vs ↔ ∃ a ∈ r.arguments, a.name = name ∧ a.decode w = .ok v := by
  rw [values_eq_ok_iff] at h
  generalize r.arguments = as at h ⊢
  induction h with
  | nil => simp
  | @cons a p as vs hp _ ih =>
    rw [List.mem_cons, ih, List.exists_mem_cons_iff]
    refine or_congr_left ?_
    obtain ⟨hdec, hname⟩ := hp
    rw [hdec, ← hname, Except.ok.injEq, Prod.ext_iff]
    exact ⟨fun h => ⟨h.1.symm, h.2.symm⟩, fun h => ⟨h.1.symm, h.2.symm⟩⟩

/-- Where every argument decodes, there are values. -/
theorem exists_values (h : ∀ a ∈ r.arguments, ∃ v, a.decode w = .ok v) :
    ∃ vs, r.values w = .ok vs := by
  refine exists_mapM_eq_ok fun a ha => ?_
  obtain ⟨v, hv⟩ := h a ha
  exact ⟨(a.name, v), by rw [hv]; rfl⟩

/-- Where there are values, reading goes on with the arities. -/
theorem read_of_values (h : r.values w = .ok vs) :
    r.read w = do
      let inputs ← (r.inputs.resolve w).mapError (·.inPlace ⟨r.name, .computed .inputs⟩)
      let outputs ← (r.outputs.resolve w).mapError (·.inPlace ⟨r.name, .computed .outputs⟩)
      return ⟨sortByName vs, inputs, outputs⟩ := by
  rw [read, h]
  rfl

/-- What is rendered is the name with the values shown. -/
theorem render_of_read {d : Decoded} (h : r.read w = .ok d) :
    r.render w = .ok (rendered r.name (r.shown d)) := by
  rw [render, h]
  show (if (r.shown d).isEmpty then _ else _ : Except Error String) = _
  unfold rendered
  split <;> rfl

end Record
end OperandCodec
