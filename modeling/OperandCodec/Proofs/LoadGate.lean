import OperandCodec.Document.Requirement
import OperandCodec.Proofs.Conversion
import OperandCodec.Proofs.FirstFailure
/-!
# Conversion is an exact gate

A document is converted exactly if every requirement on its parts is met
and the record that it describes is valid; otherwise the first requirement
that is not met decides the error, and behind all of them the first flaw of
the record (`conversion_is_exact_gate`). The requirements are lists
without a bound on their length, looked at in one fixed order, and a step of
the conversion fails at its own requirements only (`FailsAt`): how steps
are put together is how the lists are.
-/

namespace OperandCodec

open Requirement

variable {opcode : String}

/-! ## Requirements -/

namespace Requirement

variable {q : Requirement}

/-- **A requirement is met exactly where no error is there to refuse it.** -/
theorem exists_refuses_iff : (∃ e, q.Refuses opcode e) ↔ ¬ q.Met := by
  cases q with
  | bits owner pair =>
    obtain ⟨start, stop⟩ := pair
    constructor
    · rintro ⟨_, h⟩ ⟨horder, hbound⟩
      cases h <;> omega
    · intro h
      rw [Met] at h
      by_cases horder : stop < start
      · exact ⟨_, .startAfterEnd horder⟩
      · exact ⟨_, .beyondWord (by omega) (by omega)⟩
  | entry argument bounds =>
    constructor
    · rintro ⟨_, h⟩ ⟨hlength, hbounds⟩
      cases h with
      | entryLength hone htwo => omega
      | boundTooLarge _ hfind =>
        have hlarge := List.find?_some hfind
        have hn := hbounds _ (List.mem_of_find?_eq_some hfind)
        simp only [decide_eq_true_eq] at hlarge
        omega
    · intro h
      by_cases hlength : bounds.length = 1 ∨ bounds.length = 2
      · cases hfind : bounds.find? (65535 < ·) with
        | some n => exact ⟨_, .boundTooLarge hlength hfind⟩
        | none =>
          refine absurd ⟨hlength, fun n hn => ?_⟩ h
          simpa using List.find?_eq_none.1 hfind n hn
      · rw [not_or] at hlength
        exact ⟨_, .entryLength hlength.1 hlength.2⟩
  | computation subject source v =>
    constructor
    · rintro ⟨_, h⟩ hmet
      cases h with
      | noTree hs hcause =>
        obtain ⟨e, he⟩ := hmet _ hs
        rw [hcause] at he
        cases he
    · intro h
      simp only [Met, not_forall] at h
      obtain ⟨s, hs, hnone⟩ := h
      cases hsource : Expr.ofSource s v with
      | error cause => exact ⟨_, .noTree hs hsource⟩
      | ok e => exact absurd ⟨e, hsource⟩ hnone
  | noComputation source =>
    constructor
    · rintro ⟨_, h⟩ hmet
      cases h with
      | inputsWithoutBits hs =>
        rw [Met, hs] at hmet
        cases hmet
    · intro h
      obtain ⟨s, hs⟩ := Option.ne_none_iff_exists'.1 h
      exact ⟨_, .inputsWithoutBits hs⟩
  | outputBits bits =>
    constructor
    · rintro ⟨_, h⟩ hmet
      cases h
      cases hmet
    · intro h
      cases bits with
      | none => exact ⟨_, .outputsWithoutBits⟩
      | some pair => exact absurd rfl h

/-- A computation is the only thing to be refused as one that cannot be evaluated; all else is
refused as invalid metadata. -/
theorem Refuses.kind {e : Error} (h : q.Refuses opcode e) :
    (e.kind = .evaluation ∧ ∃ subject source v, q = .computation subject source v) ∨
      (e.kind = .invalidMetadata ∧ ∀ subject source v, q ≠ .computation subject source v) := by
  cases h with
  | noTree => exact .inl ⟨rfl, _, _, _, rfl⟩
  | _ => exact .inr ⟨rfl, nofun⟩

end Requirement

/-- A step fails exactly with the error of the first requirement that is refused. -/
def FailsAt {α : Type} (opcode : String) (x : Except Error α) (qs : List Requirement) : Prop :=
  ∀ e, x = .error e ↔ FirstWith (Refuses opcode) qs e

namespace FailsAt

variable {α β : Type} {qs qs' : List Requirement}

theorem ok (a : α) : FailsAt opcode (.ok a) [] :=
  fun _ => ⟨nofun, nofun⟩

/-- A step with one requirement. -/
theorem single {x : Except Error α} {q : Requirement} (h : ∀ e, x = .error e ↔ q.Refuses opcode e) :
    FailsAt opcode x [q] := by
  intro e
  rw [h, firstWith_cons_iff]
  simp [not_firstWith_nil]

/-- A requirement that is met makes no difference. -/
theorem behind_met {x : Except Error α} {q : Requirement} (hq : q.Met)
    (h : FailsAt opcode x qs) : FailsAt opcode x (q :: qs) := by
  intro e
  have hnone : ¬ ∃ e', q.Refuses opcode e' := fun hrefused => exists_refuses_iff.1 hrefused hq
  rw [h, firstWith_cons_iff]
  exact ⟨fun hqs => .inr ⟨hnone, hqs⟩, fun hqs => (hqs.resolve_left fun he => hnone ⟨e, he⟩).2⟩

/-- **What follows a step has its requirements behind those of the step.** -/
theorem bind {x : Except Error α} {f : α → Except Error β} (hx : FailsAt opcode x qs)
    (hf : ∀ a, FailsAt opcode (f a) qs') : FailsAt opcode (x >>= f) (qs ++ qs') := by
  intro e
  rw [bind_eq_error_iff, firstWith_append_iff, ← hx e]
  refine or_congr_right ?_
  simp only [← hx _, hf _ e, exists_and_right]
  rw [exists_eq_ok_iff]

/-- A step that nothing can fail behind. -/
theorem map {x : Except Error α} (hx : FailsAt opcode x qs) (f : α → β) :
    FailsAt opcode (x >>= fun a => pure (f a)) qs := by
  have h := hx.bind fun a => ok (f a)
  rwa [List.append_nil] at h

theorem mapM {f : α → Except Error β} {g : α → List Requirement} {as : List α}
    (h : ∀ a, FailsAt opcode (f a) (g a)) : FailsAt opcode (as.mapM f) (as.flatMap g) := by
  induction as with
  | nil => exact ok []
  | cons a as ih =>
    rw [List.mapM_cons, List.flatMap_cons]
    exact (h a).bind fun b => ih.map _

end FailsAt

/-! ## Steps -/

theorem failsAt_convertBits (owner : String) (pair : Nat × Nat) :
    FailsAt opcode (convertBits opcode owner pair) [.bits owner pair] := by
  obtain ⟨start, stop⟩ := pair
  refine .single fun e => ?_
  rw [convertBits, mapError_eq_error_iff, BitRange.ofPair?]
  constructor
  · rintro ⟨reason, hreason, rfl⟩
    split at hreason
    · cases hreason
      exact .startAfterEnd ‹_›
    split at hreason
    · cases hreason
      exact .beyondWord (by omega) ‹_›
    · cases hreason
  · intro h
    cases h with
    | startAfterEnd horder => exact ⟨_, dif_pos horder, rfl⟩
    | beyondWord horder hbound =>
      refine ⟨_, ?_, rfl⟩
      rw [dif_neg (Nat.not_lt.2 horder)]
      exact dif_pos hbound

theorem convertBound_eq_error_iff {argument : String} {n : Nat} {e : Error} :
    convertBound opcode argument n = .error e ↔
      65535 < n ∧ e = .invalidMetadata opcode (.boundTooLarge argument n) := by
  unfold convertBound
  split
  · simp only [reduceCtorEq, false_iff]
    omega
  · simp only [Except.error.injEq, eq_comm (b := e)]
    exact (and_iff_right (by omega)).symm

/-- The bounds of an entry of one or two are gone through in order. -/
theorem convertEntry_eq_error_iff {argument : String} {bounds : List Nat} {e : Error}
    (h : bounds.length = 1 ∨ bounds.length = 2) :
    convertEntry opcode argument bounds = .error e ↔
      ∃ n, bounds.find? (65535 < ·) = some n ∧
        e = .invalidMetadata opcode (.boundTooLarge argument n) := by
  have hbounds : convertEntry opcode argument bounds = .error e ↔
      bounds.mapM (convertBound opcode argument) = .error e := by
    obtain h | h := h
    · obtain ⟨v, rfl⟩ := List.length_eq_one_iff.1 h
      simp [convertEntry, bind_eq_error_iff, pure, Except.pure]
    · obtain ⟨lo, hi, rfl⟩ := List.length_eq_two.1 h
      simp [convertEntry, bind_eq_error_iff, pure, Except.pure]
  rw [hbounds, mapM_eq_error_iff, ← firstWith_find?_iff]
  simp only [convertBound_eq_error_iff, decide_eq_true_eq]

theorem convertEntry_of_length {argument : String} {bounds : List Nat} (hone : bounds.length ≠ 1)
    (htwo : bounds.length ≠ 2) : convertEntry opcode argument bounds =
      .error (.invalidMetadata opcode (.entryLength argument bounds.length)) := by
  unfold convertEntry
  split
  · exact absurd rfl hone
  · exact absurd rfl htwo
  · rfl

theorem failsAt_convertEntry (argument : String) (bounds : List Nat) :
    FailsAt opcode (convertEntry opcode argument bounds) [.entry argument bounds] := by
  refine .single fun e => ?_
  by_cases hlength : bounds.length = 1 ∨ bounds.length = 2
  · rw [convertEntry_eq_error_iff hlength]
    constructor
    · rintro ⟨n, hn, rfl⟩
      exact .boundTooLarge hlength hn
    · intro h
      cases h with
      | entryLength hone htwo => omega
      | boundTooLarge _ hn => exact ⟨_, hn, rfl⟩
  · obtain ⟨hone, htwo⟩ := not_or.1 hlength
    rw [convertEntry_of_length hone htwo, Except.error.injEq, eq_comm]
    constructor
    · rintro rfl
      exact .entryLength hone htwo
    · intro h
      cases h with
      | entryLength => rfl
      | boundTooLarge h _ => omega

theorem failsAt_convertValidRange (argument : String) (entries : List (List Nat)) :
    FailsAt opcode (convertValidRange opcode argument entries)
      (entries.map (.entry argument)) := by
  rw [List.map_eq_flatMap]
  exact (FailsAt.mapM (failsAt_convertEntry argument)).map _

theorem failsAt_compileOptional (place : Place) (source : Option String) (v : Variable) :
    FailsAt place.opcode (afresh (compileOptional place source v))
      [.computation place.subject source v] := by
  refine .single fun e => ?_
  unfold compileOptional
  rw [← written?]
  cases hs : written? source with
  | none =>
    constructor
    · intro h
      cases h
    · intro h
      cases h with
      | noTree h _ =>
        rw [hs] at h
        cases h
  | some s =>
    simp only [afresh_bind, afresh_tryCatch_throw, afresh_pure, afresh_compile, bind_eq_error_iff,
      mapError_eq_error_iff]
    unfold Computation.ofTree
    constructor
    · rintro (⟨e', he', rfl⟩ | ⟨_, _, ⟨⟩⟩)
      split at he'
      · cases he'
      · cases he'
        exact .noTree hs ‹_›
    · intro h
      cases h with
      | @noTree _ _ _ s' cause h hcause =>
        obtain rfl := Option.some.inj (hs.symm.trans h)
        rw [hcause]
        exact .inl ⟨_, rfl, rfl⟩

/-! ## Parts of a document -/

theorem ArgumentDocument.failsAt_convert (d : ArgumentDocument) :
    FailsAt opcode (afresh (d.convert opcode)) d.requirements := by
  simp only [ArgumentDocument.convert, afresh_bind, afresh_ofExcept, afresh_pure]
  have hrange : FailsAt opcode (d.validRange.mapM (convertValidRange opcode d.name))
      ((d.validRange.getD []).map (.entry d.name)) := by
    cases d.validRange with
    | none => exact .ok none
    | some entries =>
      rw [Option.mapM_some, ← bind_pure_comp]
      exact (failsAt_convertValidRange d.name entries).map _
  exact (failsAt_convertBits d.name d.bits).bind fun bits => hrange.bind fun range =>
    (failsAt_compileOptional ⟨opcode, .argument d.name⟩ d.computation .arg).map _

theorem OperandDocument.failsAt_convert (d : OperandDocument) :
    FailsAt opcode (afresh (d.convert opcode)) d.requirements := by
  cases d with
  | zero => exact .ok _
  | arguments args =>
    simp only [OperandDocument.convert, afresh_bind, afresh_mapM, afresh_pure]
    exact (FailsAt.mapM fun d => ArgumentDocument.failsAt_convert d).map _

theorem failsAt_arity (arity : Arity) (pair : Nat × Nat) (computation : Option String)
    {α : Type} (f : BitRange → Option Computation → α) :
    FailsAt opcode (convertBits opcode arity.name pair >>= fun bits =>
      afresh (compileOptional ⟨opcode, .computed arity⟩ computation .bits) >>= fun c =>
        pure (f bits c)) (arityRequirements arity pair computation) :=
  (failsAt_convertBits arity.name pair).bind fun bits =>
    (failsAt_compileOptional ⟨opcode, .computed arity⟩ computation .bits).map (f bits)

theorem InputsDocument.failsAt_convert (d : InputsDocument) :
    FailsAt opcode (afresh (d.convert opcode)) d.requirements := by
  cases d with
  | zero => exact .ok _
  | declared params bits computation =>
    cases bits with
    | some pair =>
      simp only [InputsDocument.convert, afresh_bind, afresh_ofExcept, afresh_pure]
      exact failsAt_arity .inputs pair computation _
    | none =>
      refine .single fun e => ?_
      rw [InputsDocument.convert, ← written?]
      cases hs : written? computation with
      | none =>
        constructor
        · intro h
          cases h
        · intro h
          cases h with
          | inputsWithoutBits h =>
            rw [hs] at h
            cases h
      | some s =>
        rw [afresh_throw, Except.error.injEq, eq_comm]
        constructor
        · rintro rfl
          exact .inputsWithoutBits hs
        · intro h
          cases h with
          | inputsWithoutBits h => rw [Option.some.inj (hs.symm.trans h)]

theorem OutputsDocument.failsAt_convert (d : OutputsDocument) :
    FailsAt opcode (afresh (d.convert opcode)) d.requirements := by
  cases d with
  | count n => exact .ok _
  | declared bits computation =>
    cases bits with
    | some pair =>
      simp only [OutputsDocument.convert, afresh_bind, afresh_ofExcept, afresh_pure]
      refine .behind_met rfl ?_
      rw [Option.toList_some, List.flatMap_singleton]
      exact failsAt_arity .outputs pair computation _
    | none =>
      refine .single fun e => ?_
      rw [OutputsDocument.convert, afresh_throw, Except.error.injEq, eq_comm]
      constructor
      · rintro rfl
        exact .outputsWithoutBits
      · intro h
        cases h
        rfl

/-! ## Documents -/

namespace Document

variable {d : Document}

theorem failsAt_parts (d : Document) : FailsAt d.name d.parts d.requirements :=
  d.operand.failsAt_convert.bind fun _ => d.inputs.failsAt_convert.bind fun _ =>
    d.outputs.failsAt_convert.map _

/-- The first requirement that is not met is refused. -/
theorem parts_eq_error_iff {e : Error} :
    d.parts = .error e ↔ ∃ q, d.FirstUnmet q ∧ q.Refuses d.name e := by
  rw [d.failsAt_parts, firstWith_iff_split]
  simp only [exists_refuses_iff, not_not]
  constructor
  · rintro ⟨before, q, behind, hsplit, hbefore, he⟩
    exact ⟨q, ⟨before, behind, hsplit, hbefore, exists_refuses_iff.1 ⟨e, he⟩⟩, he⟩
  · rintro ⟨q, ⟨before, behind, hsplit, hbefore, -⟩, he⟩
    exact ⟨before, q, behind, hsplit, hbefore, he⟩

/-- Where every requirement is met there is a record that is described. -/
theorem exists_describes_iff : (∃ r, d.Describes r) ↔ ∀ q ∈ d.requirements, q.Met := by
  simp only [← parts_eq_ok_iff]
  rw [exists_eq_ok_iff]
  simp only [d.failsAt_parts _]
  rw [exists_firstWith_iff]
  simp only [exists_refuses_iff, not_exists, not_and, not_not]

/-- There is one requirement at most that is the first not to be met. -/
theorem FirstUnmet.unique {q q' : Requirement} (h : d.FirstUnmet q) (h' : d.FirstUnmet q') :
    q = q' := by
  classical
  have hfind : ∀ p, d.FirstUnmet p → d.requirements.find? (fun p => ¬ p.Met) = some p := by
    rintro p ⟨before, behind, hsplit, hbefore, hp⟩
    refine List.find?_eq_some_iff_append.2 ⟨by simpa using hp, before, behind, hsplit, ?_⟩
    simpa using hbefore
  exact Option.some.inj ((hfind q h).symm.trans (hfind q' h'))

theorem FirstUnmet.not_forall_met {q : Requirement} (h : d.FirstUnmet q) :
    ¬ ∀ q ∈ d.requirements, q.Met := by
  obtain ⟨before, behind, hsplit, -, hq⟩ := h
  intro hmet
  exact hq (hmet q (by simp [hsplit]))

end Document

/-- The first flaw of a record is what it is refused for. -/
theorem Opcode.ofRecord_eq_error_iff {r : Record} {e : Error} : Opcode.ofRecord r = .error e ↔
    ∃ flaw, r.flaw? = some flaw ∧ e = .invalidMetadata r.name flaw := by
  unfold ofRecord
  split
  · simp [*]
  · simp [*, eq_comm]

/-- **Conversion is an exact gate.** A document is converted to an opcode if and only if every
requirement on its parts is met and the record that it describes has no flaw. Otherwise the first
requirement that is not met, in the order of the checks, says what the error is, and behind all of
them the first flaw of the record. So conversion fails as an evaluation does where the first
requirement that is not met is one on a computation, and with invalid metadata otherwise. -/
theorem conversion_is_exact_gate (d : Document) :
    ((∃ op, afresh d.convert = .ok op) ↔
      (∀ q ∈ d.requirements, q.Met) ∧ ∃ r, d.Describes r ∧ r.flaw? = none) ∧
    (∀ e, afresh d.convert = .error e ↔ (∃ q, d.FirstUnmet q ∧ q.Refuses d.name e) ∨
      (∀ q ∈ d.requirements, q.Met) ∧
        ∃ r flaw, d.Describes r ∧ r.flaw? = some flaw ∧ e = .invalidMetadata d.name flaw) ∧
    ∀ e, afresh d.convert = .error e →
      e.kind = .evaluation ∧ (∃ subject source v, d.FirstUnmet (.computation subject source v)) ∨
      e.kind = .invalidMetadata ∧
        ∀ subject source v, ¬ d.FirstUnmet (.computation subject source v) := by
  have herror : ∀ e, afresh d.convert = .error e ↔ (∃ q, d.FirstUnmet q ∧ q.Refuses d.name e) ∨
      (∀ q ∈ d.requirements, q.Met) ∧
        ∃ r flaw, d.Describes r ∧ r.flaw? = some flaw ∧ e = .invalidMetadata d.name flaw := by
    intro e
    rw [d.afresh_convert, bind_eq_error_iff, Document.parts_eq_error_iff,
      ← Document.exists_describes_iff]
    simp only [Document.parts_eq_ok_iff, Opcode.ofRecord_eq_error_iff]
    have hname : ∀ r, d.Describes r → r.name = d.name :=
      fun r hr => congrArg Document.name hr.spelled
    refine or_congr_right ⟨?_, ?_⟩
    · rintro ⟨r, hr, flaw, hflaw, rfl⟩
      exact ⟨⟨r, hr⟩, r, flaw, hr, hflaw, by rw [hname r hr]⟩
    · rintro ⟨-, r, flaw, hr, hflaw, rfl⟩
      exact ⟨r, hr, flaw, hflaw, by rw [hname r hr]⟩
  refine ⟨?_, herror, fun e he => ?_⟩
  · simp only [Document.convert_eq_ok_iff]
    constructor
    · rintro ⟨op, h⟩
      exact ⟨Document.exists_describes_iff.1 ⟨_, h⟩, _, h, op.sound⟩
    · rintro ⟨-, r, hr, hflaw⟩
      exact ⟨⟨r, hflaw⟩, hr⟩
  · obtain ⟨q, hq, hrefused⟩ | ⟨hmet, r, flaw, -, -, rfl⟩ := (herror e).1 he
    · obtain ⟨hkind, subject, source, v, rfl⟩ | ⟨hkind, hother⟩ := hrefused.kind
      · exact .inl ⟨hkind, subject, source, v, hq⟩
      · exact .inr ⟨hkind, fun subject source v h => hother subject source v (hq.unique h)⟩
    · exact .inr ⟨rfl, fun subject source v h => h.not_forall_met hmet⟩

/-- A document whose second argument has a computation without a tree, and whose outputs have no
bits either: the computation comes first. -/
theorem conversion_is_exact_gate_of_unfinished :
    let d : Document := ⟨"call", "", .arguments [
      ⟨(0, 3), "first", none, some " ", some [[3], [5, 9]]⟩,
      ⟨(4, 7), "second", none, some "arg +", none⟩], .zero, .declared none none, []⟩
    ∃ e, afresh d.convert = .error e ∧ e.kind = .evaluation ∧
      d.FirstUnmet (.computation (.argument "second") (some "arg +") .arg) := by
  intro d
  have htree : Expr.ofSource "arg +" .arg = .error .unexpectedEnd := by decide +kernel
  have hwritten : written? (some "arg +") = some "arg +" := by decide +kernel
  have hblank : written? (some " ") = none := by decide +kernel
  have hrefused : Refuses d.name (.computation (.argument "second") (some "arg +") .arg) _ :=
    .noTree hwritten htree
  have hfirst : d.FirstUnmet (.computation (.argument "second") (some "arg +") .arg) := by
    refine ⟨[.bits "first" (0, 3), .entry "first" [3], .entry "first" [5, 9],
      .computation (.argument "first") (some " ") .arg, .bits "second" (4, 7)],
      [.outputBits none], rfl, ?_, exists_refuses_iff.1 ⟨_, hrefused⟩⟩
    simp [Met, hblank]
  have he := ((conversion_is_exact_gate d).2.1 _).2 (.inl ⟨_, hfirst, hrefused⟩)
  obtain ⟨hkind, -⟩ | ⟨-, hother⟩ := (conversion_is_exact_gate d).2.2 _ he
  · exact ⟨_, he, hkind, hfirst⟩
  · exact absurd hfirst (hother _ _ _)

end OperandCodec
