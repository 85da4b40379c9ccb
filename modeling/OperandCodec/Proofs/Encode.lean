import Mathlib.Tactic.Common
import Mathlib.Data.List.Perm.Basic
import OperandCodec.Proofs.Afresh
import OperandCodec.Proofs.Fields
import OperandCodec.Proofs.FirstFailure
import OperandCodec.Proofs.Search
import OperandCodec.Record.Encoding
import OperandCodec.Record.Valid
/-!
# What building writes

Building goes through the arguments one by one. An argument is packed
exactly where one raw value alone holds what is asked for
(`packInto_eq_ok_iff`): the four ways that its raw value is chosen in come
to this. Since the ranges of the arguments are apart, what one argument
writes is still there when the others have been packed
(`foldlM_packInto_eq_ok_iff`).
-/

namespace OperandCodec
namespace Argument

variable {opcode : String} {args : Assignment} {n : Nat} {a : Argument} {w w' : Word}

/-! ## One argument -/

theorem requested_eq_ok_iff {v : Value} :
    a.requested opcode args n = .ok v ↔ a.Asks args n v := by
  unfold requested Asks
  split
  · rw [← Value.ofInt?_eq_some_iff]
    cases Value.ofInt? n <;> simp
  · cases args a.name <;> simp

/-- One value at most is asked for. -/
theorem Asks.unique {v v' : Value} (h : a.Asks args n v) (h' : a.Asks args n v') : v = v' := by
  unfold Asks at h h'
  split at h
  · rw [if_pos ‹_›] at h'
    exact Int64.toInt_inj.1 (h.trans h'.symm)
  · rw [if_neg ‹_›] at h'
    exact Option.some.inj (h.symm.trans h')

theorem permitted_eq_ok_iff {raw v : Value} :
    a.permitted opcode raw = .ok v ↔ ValidRange.permits a.validRange raw ∧ v = raw := by
  unfold permitted ValidRange.permits
  cases a.validRange with
  | none => simp only [Option.all_none, true_and, Except.ok.injEq, eq_comm]
  | some r =>
    rw [Option.all_some]
    by_cases hraw : r.contains raw
    · simp only [hraw, if_true, true_and, Except.ok.injEq, eq_comm]
    · simp [hraw]

theorem mem_eligible {raws : List Word} {r : Word} :
    r ∈ a.eligible raws ↔ r ∈ raws ∧ ValidRange.permits a.validRange r.toValue :=
  List.mem_filter

/-! The choice by the number of eligible raw values. -/

theorem choose_of_eligible_one {c : Computation} {target : Value} {raws : List Word} {r : Word}
    (h : a.eligible raws = [r]) : a.choose opcode c target raws = .ok r.toValue := by
  unfold choose
  rw [h]

theorem choose_of_eligible_many {c : Computation} {target : Value} {raws rs : List Word}
    {r r' : Word} (h : a.eligible raws = r :: r' :: rs) :
    a.choose opcode c target raws =
      .error (.nonInvertible opcode a.name c.source target (rs.length + 2)) := by
  unfold choose
  rw [h]
  rcases raws with - | ⟨x, - | ⟨y, ys⟩⟩ <;> rfl

/-- Where nothing is eligible, only a lone raw value is chosen. -/
theorem choose_eq_ok_of_eligible_none {c : Computation} {target v : Value} {raws : List Word}
    (h : a.eligible raws = []) (hv : a.choose opcode c target raws = .ok v) :
    ∃ r, raws = [r] ∧ v = r.toValue := by
  unfold choose at hv
  rw [h] at hv
  rcases raws with - | ⟨x, - | ⟨y, ys⟩⟩
  · cases hv
  · exact ⟨x, rfl, (Except.ok.inj hv).symm⟩
  · cases hv

/-- The lone raw value that is chosen for the check to name fails that check, so a choice that
passes it was the only eligible one. -/
theorem exists_choose_permitted_iff {c : Computation} {target v : Value} {raws : List Word} :
    (∃ raw, a.choose opcode c target raws = .ok raw ∧ a.permitted opcode raw = .ok v) ↔
      ∃ r, a.eligible raws = [r] ∧ v = r.toValue := by
  constructor
  · rintro ⟨raw, hchoose, hpermitted⟩
    obtain ⟨hok, rfl⟩ := permitted_eq_ok_iff.1 hpermitted
    rcases heq : a.eligible raws with - | ⟨r, - | ⟨r', rs⟩⟩
    · -- what passes the check is eligible, but nothing was
      obtain ⟨r, rfl, rfl⟩ := choose_eq_ok_of_eligible_none heq hchoose
      have hr := mem_eligible.2 ⟨List.mem_singleton_self r, hok⟩
      rw [heq] at hr
      cases hr
    · rw [choose_of_eligible_one heq] at hchoose
      exact ⟨r, rfl, (Except.ok.inj hchoose).symm⟩
    · rw [choose_of_eligible_many heq] at hchoose
      cases hchoose
  · rintro ⟨r, heq, rfl⟩
    have hr : r ∈ a.eligible raws := by
      rw [heq]
      exact List.mem_singleton_self r
    exact ⟨r.toValue, choose_of_eligible_one heq,
      permitted_eq_ok_iff.2 ⟨(mem_eligible.1 hr).2, rfl⟩⟩

/-- The raw value of an argument, in the two ways that it is found. -/
theorem encode_eq_ok_iff {v : Value} :
    afresh (a.encode opcode args n) = .ok v ↔ ∃ logical, a.Asks args n logical ∧
      match a.computation with
      | none => ValidRange.permits a.validRange logical ∧ v = logical
      | some c => ∃ raws r, c.expr.search logical a.bits.width = .found raws ∧
          a.eligible raws = [r] ∧ v = r.toValue := by
  simp only [encode, afresh_bind, afresh_ofExcept, bind_eq_ok_iff, requested_eq_ok_iff]
  refine exists_congr fun logical => and_congr_right fun _ => ?_
  cases a.computation with
  | none => simp [permitted_eq_ok_iff]
  | some c =>
    simp only [afresh_bind, afresh_ofExcept, bind_eq_ok_iff, afresh_invert]
    cases c.expr.search logical a.bits.width with
    | failed fault => simp
    | found raws =>
      simp only [Except.ok.injEq, Inversion.found.injEq, exists_eq_left']
      rw [exists_choose_permitted_iff]
      constructor
      · rintro ⟨r, hr⟩
        exact ⟨raws, r, rfl, hr⟩
      · rintro ⟨_, r, rfl, hr⟩
        exact ⟨r, hr⟩

/-- The raw values of an argument's width are those that fit its bits. -/
theorem mem_domain_iff_fits {r : Word} :
    r ∈ Expr.domain a.bits.width ↔ r.toNat ≤ a.bits.maxValue := by
  have := Nat.two_pow_pos a.bits.width
  rw [Expr.mem_domain, Nat.min_eq_left a.bits.width_le, a.bits.maxValue_eq]
  omega

/-- The eligible raw values are the ones that the argument admits. -/
theorem mem_eligible_iff_admits {c : Computation} {logical : Value} {raws : List Word} {r : Word}
    (hc : a.computation = some c) (hask : a.Asks args n logical)
    (hraws : c.expr.search logical a.bits.width = .found raws) :
    r ∈ a.eligible raws ↔ a.Admits args n r := by
  rw [mem_eligible, Expr.mem_of_search_found hraws, mem_domain_iff_fits]
  have happly : Computation.applyOptional a.computation r.toValue = .ok logical ↔
      c.expr.eval r.toValue = .ok logical := by
    rw [hc, Computation.applyOptional, Computation.apply, mapError_eq_ok_iff]
  constructor
  · rintro ⟨⟨hfits, heval⟩, hperm⟩
    exact ⟨hfits, hperm, logical, hask, happly.2 heval⟩
  · rintro ⟨hfits, hperm, v, hv, heval⟩
    obtain rfl := hask.unique hv
    exact ⟨⟨hfits, happly.1 heval⟩, hperm⟩

/-- **A raw value comes out exactly where the argument admits no other.** -/
theorem encode_toValue_iff {r : Word} (hfits : r.toNat ≤ a.bits.maxValue) :
    afresh (a.encode opcode args n) = .ok r.toValue ↔ ∀ r', a.Admits args n r' ↔ r' = r := by
  rw [encode_eq_ok_iff]
  cases hc : a.computation with
  | none =>
    -- the raw value is the value asked for itself
    simp only []
    constructor
    · rintro ⟨logical, hask, hperm, rfl⟩ r'
      constructor
      · rintro ⟨-, -, v, hv, heval⟩
        rw [hc, Computation.applyOptional, Except.ok.injEq] at heval
        exact Word.toValue_injective (heval.trans (hv.unique hask))
      · rintro rfl
        exact ⟨hfits, hperm, _, hask, by rw [hc]; rfl⟩
    · intro h
      obtain ⟨-, hperm, v, hv, heval⟩ := (h r).2 rfl
      rw [hc, Computation.applyOptional, Except.ok.injEq] at heval
      exact ⟨v, hv, heval ▸ hperm, heval⟩
  | some c =>
    simp only []
    constructor
    · rintro ⟨logical, hask, raws, r₀, hraws, heq, hr₀⟩ r'
      obtain rfl := Word.toValue_injective hr₀
      rw [← mem_eligible_iff_admits hc hask hraws, heq, List.mem_singleton]
    · intro h
      obtain ⟨-, -, v, hv, heval⟩ := (h r).2 rfl
      refine ⟨v, hv, ?_⟩
      rw [hc, Computation.applyOptional, Computation.apply, mapError_eq_ok_iff] at heval
      cases hs : c.expr.search v a.bits.width with
      | failed fault =>
        -- the search fails only where every raw value has a fault, and `r` has none
        exact absurd ⟨v, heval⟩ ((Expr.search_eq_failed_iff.1 hs).2 r (mem_domain_iff_fits.2 hfits))
      | found raws =>
        -- what is eligible has no repetition and no member but `r`, so it is the list of `r`
        refine ⟨raws, r, rfl, List.perm_singleton.1 ?_, rfl⟩
        have hnodup : (a.eligible raws).Nodup :=
          ((Expr.ascending_of_search_found hs).filter _).imp fun hlt heq => by simp [heq] at hlt
        refine (List.perm_ext_iff_of_nodup hnodup (by simp)).2 fun r' => ?_
        rw [mem_eligible_iff_admits hc hv hs, h r', List.mem_singleton]

/-- **An argument is packed exactly where it admits one raw value.** -/
theorem packInto_eq_ok_iff : afresh (a.packInto opcode args n w) = .ok w' ↔
    ∃ r, (∀ r', a.Admits args n r' ↔ r' = r) ∧ w.pack a.bits r.toValue = .ok w' := by
  simp only [packInto, afresh_tryCatch_throw, mapError_eq_ok_iff, afresh_bind, afresh_ofExcept,
    bind_eq_ok_iff]
  constructor
  · rintro ⟨v, henc, hpack⟩
    obtain ⟨r, hfits, rfl⟩ := Word.exists_raw_of_pack hpack
    exact ⟨r, (encode_toValue_iff hfits).1 henc, hpack⟩
  · rintro ⟨r, hr, hpack⟩
    exact ⟨r.toValue, (encode_toValue_iff ((hr r).2 rfl).fits).2 hr, hpack⟩

/-- Whether an argument is packed, and with what error it is not, does not depend on the word that
it is packed into. -/
theorem packInto_eq_error_congr {e : Error} (w w' : Word) :
    afresh (a.packInto opcode args n w) = .error e ↔
      afresh (a.packInto opcode args n w') = .error e := by
  have hpack : ∀ (v : Value) (e : RangeError),
      w.pack a.bits v = .error e ↔ w'.pack a.bits v = .error e := by
    intro v e
    rw [Word.pack_eq_error_iff, Word.pack_eq_error_iff]
  simp only [packInto, afresh_tryCatch_throw, mapError_eq_error_iff, afresh_bind, afresh_ofExcept,
    bind_eq_error_iff, hpack]

/-! ## All arguments -/

/-- **What the arguments write stays**: each holds the one raw value that it admits, and the
positions of none of them are those of the word before. -/
theorem foldlM_packInto_eq_ok_iff {as : List Argument} (has : as.Pairwise Apart) :
    as.foldlM (fun w a => afresh (a.packInto opcode args n w)) w = .ok w' ↔
      (∀ a ∈ as, ∀ r, a.Admits args n r ↔ r = w'.unpack a.bits) ∧
        ∀ i, (∀ a ∈ as, i ∉ a.bits) → w'.getLsbD i = w.getLsbD i := by
  induction as generalizing w with
  | nil =>
    simp only [List.foldlM_nil, List.not_mem_nil, false_imp_iff, implies_true, true_and,
      true_imp_iff]
    constructor
    · intro h i
      rw [Except.ok.inj h]
    · intro h
      exact congrArg _ (BitVec.eq_of_getLsbD_eq fun i _ => (h i).symm)
  | cons a as ih =>
    obtain ⟨hapart, has⟩ := List.pairwise_cons.1 has
    simp only [List.foldlM_cons, bind_eq_ok_iff, packInto_eq_ok_iff, ih has, List.forall_mem_cons]
    constructor
    · rintro ⟨w₁, ⟨r, hr, hpack⟩, hin, hout⟩
      -- the other arguments write outside the bits of `a`, so its raw value is still there
      have hkept : w'.unpack a.bits = r := by
        rw [← Word.unpack_pack hpack, Word.unpack_eq_iff]
        exact fun i hi => hout i fun b hb => (hapart b hb).bits i hi
      refine ⟨⟨fun r' => hkept ▸ hr r', hin⟩, fun i hi => ?_⟩
      rw [hout i hi.2, Word.getLsbD_pack hpack, if_neg hi.1]
    · rintro ⟨⟨ha, hin⟩, hout⟩
      -- the word with what `w'` holds for `a` is the one that the others are packed into
      obtain ⟨w₁, hpack⟩ := Word.exists_pack w (w'.unpack_le a.bits)
      refine ⟨w₁, ⟨_, ha, hpack⟩, hin, fun i hi => ?_⟩
      by_cases hia : i ∈ a.bits
      · exact (Word.unpack_eq_iff.1 (Word.unpack_pack hpack) i hia).symm
      · rw [hout i ⟨hia, hi⟩, Word.getLsbD_pack hpack, if_neg hia]

end Argument

namespace Record

variable {r : Record} {args : Assignment} {n : Nat} {w : Word}

/-- **What building succeeds with**: each argument holds the one raw value that it admits, and
nothing else is written. -/
theorem build_eq_ok_iff (hr : r.arguments.Pairwise Argument.Apart) :
    afresh (r.build args n) = .ok w ↔
      (∀ a ∈ r.arguments, ∀ raw, a.Admits args n raw ↔ raw = w.unpack a.bits) ∧
        ∀ i, w.getLsbD i → ∃ a ∈ r.arguments, i ∈ a.bits := by
  rw [build, afresh_foldlM, Argument.foldlM_packInto_eq_ok_iff hr]
  refine and_congr_right fun _ => forall_congr' fun i => ?_
  rw [show (0 : Word).getLsbD i = false by simp]
  constructor
  · intro h hi
    by_contra hnone
    push Not at hnone
    rw [h hnone] at hi
    exact Bool.noConfusion hi
  · intro h hnone
    rw [Bool.eq_false_iff]
    intro hi
    obtain ⟨a, ha, hia⟩ := h hi
    exact hnone a ha hia

/-- **What building fails with**: the error of the first argument that is not packed. -/
theorem build_eq_error_iff {e : Error} : afresh (r.build args n) = .error e ↔
    FirstWith (fun a e => afresh (a.packInto r.name args n 0) = .error e) r.arguments e := by
  rw [build, afresh_foldlM]
  exact foldlM_eq_error_iff fun w w' a e => Argument.packInto_eq_error_congr w w'

/-- A word encodes a request exactly where each argument admits what it holds. -/
theorem encodes_iff : r.Encodes args n w ↔
    (∀ i, w.getLsbD i → ∃ a ∈ r.arguments, i ∈ a.bits) ∧
      ∀ a ∈ r.arguments, a.Admits args n (w.unpack a.bits) := by
  constructor
  · intro h
    exact ⟨h.clear, fun a ha => ⟨w.unpack_le a.bits, h.permitted a ha, h.decoded a ha⟩⟩
  · rintro ⟨hclear, hadmits⟩
    exact ⟨hclear, fun a ha => (hadmits a ha).permitted, fun a ha => (hadmits a ha).decoded⟩

/-- What is built encodes the request. -/
theorem encodes_of_build (hr : r.arguments.Pairwise Argument.Apart)
    (h : afresh (r.build args n) = .ok w) : r.Encodes args n w := by
  obtain ⟨hin, hclear⟩ := (build_eq_ok_iff hr).1 h
  exact encodes_iff.2 ⟨hclear, fun a ha => (hin a ha _).2 rfl⟩

end Record
end OperandCodec
