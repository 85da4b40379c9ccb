import Mathlib.Data.Set.Card
import Mathlib.Tactic.Common
import OperandCodec.Proofs.Encode
/-!
# Why a request is refused

Building breaks off at the first argument that is not packed. Which error
comes out is said here by what was asked for (`Argument.Refuses`): by the
value without a computation, and with one by how many raw values it maps to
the value (`Argument.matching`) and how many of those are permitted
(`Argument.eligibleMatching`). No way of searching is mentioned. The
conditions are those under which an argument is not packed, each with its
error and no other (`Argument.packInto_eq_error_iff`), so the first argument
that has one decides (`build_refused_by_first_refusal`).
-/

namespace OperandCodec
namespace Argument

/-! ## Refusals -/

/-- A raw value fits the bits of an argument. -/
def Fits (a : Argument) (raw : Word) : Prop :=
  raw.toNat < 2 ^ a.bits.width

/-- The raw values that fit an argument and that a computation maps to a value. -/
def matching (a : Argument) (c : Computation) (v : Value) : Set Word :=
  {raw | a.Fits raw ∧ c.expr.eval raw.toValue = .ok v}

/-- The permitted ones of them. -/
def eligibleMatching (a : Argument) (c : Computation) (v : Value) : Set Word :=
  {raw ∈ a.matching c v | ValidRange.permits a.validRange raw.toValue}

/-- Why an argument is not packed, as the error that says so. -/
inductive Refuses (opcode : String) (args : Assignment) (n : Nat) (a : Argument) :
    Error → Prop where
  /-- No value is assigned. -/
  | missing : ¬ a.isInputs → args a.name = none →
      Refuses opcode args n a (.missingArgument opcode a.name)
  /-- The number of inputs at the call is too large for a logical value. -/
  | countTooLarge : a.isInputs → Int64.maxValue.toInt < n →
      Refuses opcode args n a (.range (.countTooLarge n) (some ⟨opcode, .argument a.name⟩))
  /-- The value is its own raw value and is not permitted. Whether it fits is not asked. -/
  | notPermitted {v : Value} {r : ValidRange} : a.computation = none → a.Asks args n v →
      a.validRange = some r → ¬ r.contains v →
      Refuses opcode args n a (.validation opcode a.name v r)
  /-- The value is its own raw value, is permitted, and does not fit. -/
  | doesNotFit {v : Value} : a.computation = none → a.Asks args n v →
      ValidRange.permits a.validRange v → v.toInt < 0 ∨ 2 ^ a.bits.width - 1 < v.toInt →
      Refuses opcode args n a (.range (.doesNotFit v a.bits) (some ⟨opcode, .argument a.name⟩))
  /-- The computation has a fault at every raw value; that of raw value zero is named. -/
  | allFault {v : Value} {c : Computation} {fault : Fault} : a.computation = some c →
      a.Asks args n v → (∀ raw, a.Fits raw → ∃ f, c.expr.eval raw.toValue = .error f) →
      c.expr.eval (Word.toValue 0) = .error fault →
      Refuses opcode args n a (.arithmetic c.source fault (some ⟨opcode, .argument a.name⟩))
  /-- One raw value is mapped to the value, and it is not permitted. -/
  | onlyMatchNotPermitted {v : Value} {c : Computation} {raw : Word} {r : ValidRange} :
      a.computation = some c → a.Asks args n v → a.matching c v = {raw} →
      a.eligibleMatching c v = ∅ → a.validRange = some r →
      Refuses opcode args n a (.validation opcode a.name raw.toValue r)
  /-- Several permitted raw values are mapped to the value; those are counted. -/
  | severalEligible {v : Value} {c : Computation} : a.computation = some c → a.Asks args n v →
      2 ≤ (a.eligibleMatching c v).ncard →
      Refuses opcode args n a
        (.nonInvertible opcode a.name c.source v (a.eligibleMatching c v).ncard)
  /-- No permitted raw value is mapped to the value, but either none at all or several; all of them
  are counted. -/
  | noneEligible {v : Value} {c : Computation} : a.computation = some c → a.Asks args n v →
      (∃ raw, a.Fits raw ∧ ∃ x, c.expr.eval raw.toValue = .ok x) →
      a.eligibleMatching c v = ∅ → (a.matching c v).ncard ≠ 1 →
      Refuses opcode args n a (.nonInvertible opcode a.name c.source v (a.matching c v).ncard)

variable {opcode : String} {args : Assignment} {n : Nat} {a : Argument} {c : Computation}
  {v : Value} {w : Word} {raws : List Word} {e : Error}

/-! ## The steps -/

theorem requested_eq_error_iff : a.requested opcode args n = .error e ↔
    (a.isInputs ∧ Int64.maxValue.toInt < n ∧ e = .range (.countTooLarge n) none) ∨
      (¬ a.isInputs ∧ args a.name = none ∧ e = .missingArgument opcode a.name) := by
  unfold requested
  by_cases ha : a.isInputs
  · -- a number of inputs is never below the least value
    have hnone : Value.ofInt? n = none ↔ Int64.maxValue.toInt < n := by
      have : Int64.minValue.toInt = -0x8000000000000000 := rfl
      rw [Value.ofInt?_eq_none_iff]
      omega
    simp only [ha, true_and, not_true_eq_false, false_and, or_false, ← hnone]
    cases Value.ofInt? n <;> simp [eq_comm]
  · simp only [ha, Bool.false_eq_true, false_and, not_false_eq_true, true_and, false_or]
    cases args a.name <;> simp [eq_comm]

theorem permitted_eq_error_iff {raw : Value} : a.permitted opcode raw = .error e ↔
    ∃ r, a.validRange = some r ∧ ¬ r.contains raw ∧ e = .validation opcode a.name raw r := by
  unfold permitted
  cases a.validRange with
  | none => simp
  | some r =>
    simp only [Option.some.injEq, exists_eq_left']
    by_cases hraw : r.contains raw
    · simp [hraw]
    · simp [hraw, eq_comm]

/-- No raw value is chosen where several are eligible, or none is and there is not just one. -/
theorem choose_eq_error_iff : a.choose opcode c v raws = .error e ↔
    (2 ≤ (a.eligible raws).length ∧
        e = .nonInvertible opcode a.name c.source v (a.eligible raws).length) ∨
      (a.eligible raws = [] ∧ raws.length ≠ 1 ∧
        e = .nonInvertible opcode a.name c.source v raws.length) := by
  rcases heq : a.eligible raws with - | ⟨r, - | ⟨r', rs⟩⟩
  · unfold choose
    rw [heq]
    rcases raws with - | ⟨x, - | ⟨y, ys⟩⟩ <;> simp [eq_comm]
  · rw [choose_of_eligible_one heq]
    simp
  · rw [choose_of_eligible_many heq]
    simp [eq_comm]

/-! ## What a search finds, counted -/

theorem fits_iff_mem_domain {raw : Word} : a.Fits raw ↔ raw ∈ Expr.domain a.bits.width := by
  rw [Expr.mem_domain, Nat.min_eq_left a.bits.width_le, Fits]

/-- A set is counted by a list of its members without repetition. -/
theorem ncard_eq_length {s : Set Word} (hnodup : raws.Nodup) (h : ∀ raw, raw ∈ s ↔ raw ∈ raws) :
    s.ncard = raws.length := by
  have hs : s = raws.toFinset := by
    ext raw
    simp [h]
  rw [hs, Set.ncard_coe_finset, List.toFinset_card_of_nodup hnodup]

section Found

variable (hfound : c.expr.search v a.bits.width = .found raws)
include hfound

theorem mem_matching_iff {raw : Word} : raw ∈ a.matching c v ↔ raw ∈ raws := by
  rw [Expr.mem_of_search_found hfound, ← fits_iff_mem_domain]
  rfl

theorem mem_eligibleMatching_iff {raw : Word} :
    raw ∈ a.eligibleMatching c v ↔ raw ∈ a.eligible raws := by
  rw [mem_eligible, ← mem_matching_iff hfound]
  rfl

theorem nodup_of_search_found : raws.Nodup :=
  (Expr.ascending_of_search_found hfound).imp fun hlt heq => by simp [heq] at hlt

theorem ncard_matching : (a.matching c v).ncard = raws.length :=
  ncard_eq_length (nodup_of_search_found hfound) fun _ => mem_matching_iff hfound

theorem ncard_eligibleMatching : (a.eligibleMatching c v).ncard = (a.eligible raws).length :=
  ncard_eq_length ((nodup_of_search_found hfound).filter _) fun _ =>
    mem_eligibleMatching_iff hfound

theorem eligibleMatching_eq_empty_iff : a.eligibleMatching c v = ∅ ↔ a.eligible raws = [] := by
  simp only [Set.eq_empty_iff_forall_notMem, mem_eligibleMatching_iff hfound,
    List.eq_nil_iff_forall_not_mem]

theorem matching_eq_singleton_iff {raw : Word} : a.matching c v = {raw} ↔ raws = [raw] := by
  simp only [Set.ext_iff, mem_matching_iff hfound, Set.mem_singleton_iff]
  constructor
  · intro h
    have hnodup := nodup_of_search_found hfound
    refine List.perm_singleton.1 ((List.perm_ext_iff_of_nodup hnodup ?_).2 fun raw' => ?_)
    · exact List.nodup_singleton raw
    · simpa using (h raw')
  · rintro rfl
    simp

end Found

/-! ## One argument -/

/-- Without a logical value there is no raw value. -/
theorem encode_of_requested_error (h : a.requested opcode args n = .error e) :
    afresh (a.encode opcode args n) = .error e := by
  simp only [encode, afresh_bind, afresh_ofExcept, h]
  rfl

/-- Without a computation the value is checked as it is. -/
theorem encode_of_no_computation (hc : a.computation = none) (hask : a.Asks args n v) :
    afresh (a.encode opcode args n) = a.permitted opcode v := by
  simp only [encode, afresh_bind, afresh_ofExcept, requested_eq_ok_iff.2 hask, hc]
  rfl

section Search

variable (hc : a.computation = some c) (hask : a.Asks args n v)
include hc hask

/-- With a computation a raw value is chosen among those that are found, and a search that fails is
the failure of the argument. -/
theorem encode_of_computation : afresh (a.encode opcode args n) =
    match c.expr.search v a.bits.width with
    | .found raws => a.choose opcode c v raws >>= a.permitted opcode
    | .failed fault => .error (c.faultError fault) := by
  simp only [encode, afresh_bind, afresh_ofExcept, requested_eq_ok_iff.2 hask, hc, afresh_invert]
  show (match c.expr.search v a.bits.width with
    | .found raws => Except.ok raws
    | .failed fault => .error (c.faultError fault)) >>= _ = _
  cases c.expr.search v a.bits.width <;> rfl

theorem encode_of_found (hfound : c.expr.search v a.bits.width = .found raws) :
    afresh (a.encode opcode args n) = a.choose opcode c v raws >>= a.permitted opcode := by
  rw [encode_of_computation hc hask, hfound]

theorem encode_of_failed {fault : Fault}
    (hfailed : c.expr.search v a.bits.width = .failed fault) :
    afresh (a.encode opcode args n) = .error (c.faultError fault) := by
  rw [encode_of_computation hc hask, hfailed]

end Search

/-- A search fails where the computation has a fault at every raw value that fits. -/
theorem search_eq_failed_iff {fault : Fault} : c.expr.search v a.bits.width = .failed fault ↔
    (∀ raw, a.Fits raw → ∃ f, c.expr.eval raw.toValue = .error f) ∧
      c.expr.eval (Word.toValue 0) = .error fault := by
  rw [Expr.search_eq_failed_iff, and_comm]
  refine and_congr_left fun _ => forall_congr' fun raw => ?_
  rw [← fits_iff_mem_domain]
  cases c.expr.eval raw.toValue <;> simp

/-- Otherwise something is found, if only nothing. -/
theorem exists_found_iff : (∃ raws, c.expr.search v a.bits.width = .found raws) ↔
    ∃ raw, a.Fits raw ∧ ∃ x, c.expr.eval raw.toValue = .ok x := by
  cases hs : c.expr.search v a.bits.width with
  | failed fault =>
    have hfault := (search_eq_failed_iff.1 hs).1
    simp only [reduceCtorEq, exists_false, false_iff]
    rintro ⟨raw, hfits, x, hx⟩
    obtain ⟨f, hf⟩ := hfault raw hfits
    rw [hx] at hf
    cases hf
  | found raws =>
    simp only [Inversion.found.injEq, exists_eq', true_iff]
    by_contra hnone
    push Not at hnone
    have hall : ∀ raw, a.Fits raw → ∃ f, c.expr.eval raw.toValue = .error f := by
      intro raw hfits
      cases hx : c.expr.eval raw.toValue with
      | ok x => exact absurd hx (hnone raw hfits x)
      | error f => exact ⟨f, rfl⟩
    obtain ⟨f, hf⟩ := hall 0 (Nat.two_pow_pos _)
    rw [search_eq_failed_iff.2 ⟨hall, hf⟩] at hs
    cases hs

/-- A raw value is chosen and not permitted where it is the only one that is found. -/
theorem exists_choose_refused_iff :
    (∃ raw, a.choose opcode c v raws = .ok raw ∧ a.permitted opcode raw = .error e) ↔
      ∃ raw r, raws = [raw] ∧ a.eligible raws = [] ∧ a.validRange = some r ∧
        e = .validation opcode a.name raw.toValue r := by
  constructor
  · rintro ⟨value, hchoose, hpermitted⟩
    obtain ⟨r, hr, hout, rfl⟩ := permitted_eq_error_iff.1 hpermitted
    rcases heq : a.eligible raws with - | ⟨raw, - | ⟨raw', rest⟩⟩
    · obtain ⟨raw, rfl, rfl⟩ := choose_eq_ok_of_eligible_none heq hchoose
      exact ⟨raw, r, rfl, rfl, hr, rfl⟩
    · -- what is eligible is permitted
      rw [choose_of_eligible_one heq] at hchoose
      cases hchoose
      have hraw : raw ∈ a.eligible raws := by
        rw [heq]
        exact List.mem_singleton_self raw
      have hin := (mem_eligible.1 hraw).2
      rw [hr] at hin
      exact absurd hin hout
    · rw [choose_of_eligible_many heq] at hchoose
      cases hchoose
  · rintro ⟨raw, r, rfl, heq, hr, rfl⟩
    refine ⟨raw.toValue, ?_, permitted_eq_error_iff.2 ⟨r, hr, fun hin => ?_, rfl⟩⟩
    · unfold choose
      rw [heq]
    · have hraw : raw ∈ a.eligible [raw] := by
        refine mem_eligible.2 ⟨List.mem_singleton_self raw, ?_⟩
        rw [hr]
        exact hin
      rw [heq] at hraw
      cases hraw

/-- What is found comes to an error by how much of it there is, and how much is eligible. -/
theorem chosen_eq_error_iff : a.choose opcode c v raws >>= a.permitted opcode = .error e ↔
    (2 ≤ (a.eligible raws).length ∧
        e = .nonInvertible opcode a.name c.source v (a.eligible raws).length) ∨
      (a.eligible raws = [] ∧ raws.length ≠ 1 ∧
        e = .nonInvertible opcode a.name c.source v raws.length) ∨
      ∃ raw r, raws = [raw] ∧ a.eligible raws = [] ∧ a.validRange = some r ∧
        e = .validation opcode a.name raw.toValue r := by
  rw [bind_eq_error_iff, choose_eq_error_iff, exists_choose_refused_iff, or_assoc]

/-- An argument is not packed where it has no raw value, or one that does not fit. -/
theorem packInto_eq_error_iff_encode : afresh (a.packInto opcode args n w) = .error e ↔
    ∃ e', (afresh (a.encode opcode args n) = .error e' ∨
        ∃ raw, afresh (a.encode opcode args n) = .ok raw ∧
          (raw.toInt < 0 ∨ 2 ^ a.bits.width - 1 < raw.toInt) ∧
            e' = .range (.doesNotFit raw a.bits) none) ∧
      e'.inPlace ⟨opcode, .argument a.name⟩ = e := by
  have hmax : (a.bits.maxValue : Int) = 2 ^ a.bits.width - 1 := by
    rw [a.bits.maxValue_eq]
    exact_mod_cast Nat.cast_pred (Nat.two_pow_pos a.bits.width)
  simp only [packInto, afresh_tryCatch_throw, mapError_eq_error_iff, afresh_bind, afresh_ofExcept,
    bind_eq_error_iff, Word.pack_eq_error_iff, hmax]
  refine exists_congr fun e' => and_congr_left fun _ => or_congr_right ?_
  refine exists_congr fun raw => and_congr_right fun _ => ?_
  constructor
  · rintro ⟨_, ⟨hout, rfl⟩, rfl⟩
    exact ⟨hout, rfl⟩
  · rintro ⟨hout, rfl⟩
    exact ⟨_, ⟨hout, rfl⟩, rfl⟩

/-- A raw value that is found fits. -/
theorem fits_of_encode {raw : Value} (hc : a.computation = some c)
    (h : afresh (a.encode opcode args n) = .ok raw) :
    ¬ (raw.toInt < 0 ∨ 2 ^ a.bits.width - 1 < raw.toInt) := by
  obtain ⟨logical, -, h⟩ := encode_eq_ok_iff.1 h
  rw [hc] at h
  obtain ⟨raws, r, hfound, heq, rfl⟩ := h
  have hr : r ∈ a.eligible raws := by
    rw [heq]
    exact List.mem_singleton_self r
  have hfits : r.toNat < 2 ^ a.bits.width := ((mem_eligibleMatching_iff hfound).2 hr).1.1
  rw [Word.toInt_toValue]
  have : (r.toNat : Int) < 2 ^ a.bits.width := by exact_mod_cast hfits
  omega

/-- What is found makes a refusal by how much of it there is. -/
theorem refuses_of_found (hc : a.computation = some c) (hask : a.Asks args n v)
    (hfound : c.expr.search v a.bits.width = .found raws)
    (h : a.choose opcode c v raws >>= a.permitted opcode = .error e) :
    a.Refuses opcode args n (e.inPlace ⟨opcode, .argument a.name⟩) := by
  obtain ⟨hmany, rfl⟩ | ⟨hnone, hlength, rfl⟩ | ⟨raw, r, hraws, hnone, hr, rfl⟩ :=
    chosen_eq_error_iff.1 h
  · rw [← ncard_eligibleMatching hfound] at hmany ⊢
    exact .severalEligible hc hask hmany
  · rw [← ncard_matching hfound] at hlength ⊢
    have hempty := (eligibleMatching_eq_empty_iff hfound).2 hnone
    exact .noneEligible hc hask (exists_found_iff.1 ⟨raws, hfound⟩) hempty hlength
  · have hempty := (eligibleMatching_eq_empty_iff hfound).2 hnone
    exact .onlyMatchNotPermitted hc hask ((matching_eq_singleton_iff hfound).2 hraws) hempty hr

/-- An argument that is not packed is refused for one of the reasons. -/
theorem refuses_of_packInto (h : afresh (a.packInto opcode args n w) = .error e) :
    a.Refuses opcode args n e := by
  obtain ⟨e', hcause, rfl⟩ := packInto_eq_error_iff_encode.1 h
  cases hreq : a.requested opcode args n with
  | error e₀ =>
    have henc : afresh (a.encode opcode args n) = .error e₀ := encode_of_requested_error hreq
    obtain rfl : e₀ = e' := by simpa [henc] using hcause
    obtain ⟨ha, hn, rfl⟩ | ⟨ha, hnone, rfl⟩ := requested_eq_error_iff.1 hreq
    · exact .countTooLarge ha hn
    · exact .missing ha hnone
  | ok v =>
    have hask := requested_eq_ok_iff.1 hreq
    cases hc : a.computation with
    | none =>
      rw [encode_of_no_computation hc hask] at hcause
      obtain herr | ⟨raw, hok, hout, rfl⟩ := hcause
      · obtain ⟨r, hr, hout, rfl⟩ := permitted_eq_error_iff.1 herr
        exact .notPermitted hc hask hr hout
      · obtain ⟨hin, rfl⟩ := permitted_eq_ok_iff.1 hok
        exact .doesNotFit hc hask hin hout
    | some c =>
      have herr := hcause.resolve_right fun ⟨raw, hraw, hout, _⟩ => fits_of_encode hc hraw hout
      cases hs : c.expr.search v a.bits.width with
      | failed fault =>
        rw [encode_of_failed hc hask hs] at herr
        obtain rfl := Except.error.inj herr
        obtain ⟨hall, hfault⟩ := search_eq_failed_iff.1 hs
        exact .allFault hc hask hall hfault
      | found raws =>
        rw [encode_of_found hc hask hs] at herr
        exact refuses_of_found hc hask hs herr

/-- What goes wrong with the raw value is given its place. -/
theorem packInto_of_encode {e' : Error} (h : afresh (a.encode opcode args n) = .error e')
    (hplace : e'.inPlace ⟨opcode, .argument a.name⟩ = e) :
    afresh (a.packInto opcode args n w) = .error e :=
  packInto_eq_error_iff_encode.2 ⟨e', .inl h, hplace⟩

/-- An argument that is refused is not packed. -/
theorem packInto_of_refuses (h : a.Refuses opcode args n e) :
    afresh (a.packInto opcode args n w) = .error e := by
  cases h with
  | missing ha hnone =>
    have hreq : a.requested opcode args n = _ := requested_eq_error_iff.2 (.inr ⟨ha, hnone, rfl⟩)
    exact packInto_of_encode (encode_of_requested_error hreq) rfl
  | countTooLarge ha hn =>
    have hreq : a.requested opcode args n = _ := requested_eq_error_iff.2 (.inl ⟨ha, hn, rfl⟩)
    exact packInto_of_encode (encode_of_requested_error hreq) rfl
  | @notPermitted v r hc hask hr hout =>
    have hperm : a.permitted opcode v = _ := permitted_eq_error_iff.2 ⟨r, hr, hout, rfl⟩
    exact packInto_of_encode ((encode_of_no_computation hc hask).trans hperm) rfl
  | @doesNotFit v hc hask hin hout =>
    have hperm : a.permitted opcode v = _ := permitted_eq_ok_iff.2 ⟨hin, rfl⟩
    have henc := (encode_of_no_computation hc hask).trans hperm
    exact packInto_eq_error_iff_encode.2 ⟨_, .inr ⟨_, henc, hout, rfl⟩, rfl⟩
  | @allFault v c fault hc hask hall hfault =>
    have hfailed : c.expr.search v _ = _ := search_eq_failed_iff.2 ⟨hall, hfault⟩
    exact packInto_of_encode (encode_of_failed hc hask hfailed) rfl
  | @onlyMatchNotPermitted v c raw r hc hask hmatch hempty hr =>
    -- a raw value that is mapped to the value has no fault, so the search does not fail
    have hraw : raw ∈ a.matching c v := by
      rw [hmatch]
      rfl
    obtain ⟨raws, hfound⟩ := exists_found_iff.2 ⟨raw, hraw.1, v, hraw.2⟩
    have hraws := (matching_eq_singleton_iff hfound).1 hmatch
    have hnone := (eligibleMatching_eq_empty_iff hfound).1 hempty
    have herr : a.choose opcode c v raws >>= a.permitted opcode = _ :=
      chosen_eq_error_iff.2 (.inr (.inr ⟨raw, r, hraws, hnone, hr, rfl⟩))
    exact packInto_of_encode ((encode_of_found hc hask hfound).trans herr) rfl
  | @severalEligible v c hc hask hmany =>
    obtain ⟨raw, hraw⟩ : (a.eligibleMatching c v).Nonempty :=
      Set.nonempty_of_ncard_ne_zero (by omega)
    obtain ⟨raws, hfound⟩ := exists_found_iff.2 ⟨raw, hraw.1.1, v, hraw.1.2⟩
    rw [ncard_eligibleMatching hfound] at hmany ⊢
    have herr : a.choose opcode c v raws >>= a.permitted opcode = _ :=
      chosen_eq_error_iff.2 (.inl ⟨hmany, rfl⟩)
    exact packInto_of_encode ((encode_of_found hc hask hfound).trans herr) rfl
  | @noneEligible v c hc hask hvalue hempty hlength =>
    obtain ⟨raws, hfound⟩ := exists_found_iff.2 hvalue
    have hnone := (eligibleMatching_eq_empty_iff hfound).1 hempty
    rw [ncard_matching hfound] at hlength ⊢
    have herr : a.choose opcode c v raws >>= a.permitted opcode = _ :=
      chosen_eq_error_iff.2 (.inr (.inl ⟨hnone, hlength, rfl⟩))
    exact packInto_of_encode ((encode_of_found hc hask hfound).trans herr) rfl

/-- **An argument is refused for these reasons and no others**, each with its own error. -/
theorem packInto_eq_error_iff :
    afresh (a.packInto opcode args n w) = .error e ↔ a.Refuses opcode args n e :=
  ⟨refuses_of_packInto, packInto_of_refuses⟩

/-- The reasons exclude each other. -/
theorem Refuses.unique {e' : Error} (h : a.Refuses opcode args n e)
    (h' : a.Refuses opcode args n e') : e = e' := by
  have h := packInto_of_refuses (w := 0) h
  rw [packInto_of_refuses h'] at h
  exact (Except.error.inj h).symm

end Argument

/-- **A request is refused with the error of the first argument that refuses it**, and no argument
refuses it with two errors. -/
theorem build_refused_by_first_refusal (op : Opcode) (args : Assignment) (n : Nat) :
    (∀ e, afresh (op.build args n) = .error e ↔
      ∃ before a behind, op.arguments = before ++ a :: behind ∧
        (∀ b ∈ before, ¬ ∃ e', b.Refuses op.name args n e') ∧ a.Refuses op.name args n e) ∧
    ∀ a : Argument, {e | a.Refuses op.name args n e}.Subsingleton := by
  refine ⟨fun e => ?_, fun a e he e' he' => he.unique he'⟩
  rw [Record.build_eq_error_iff, firstWith_iff_split]
  simp only [Argument.packInto_eq_error_iff]

end OperandCodec
