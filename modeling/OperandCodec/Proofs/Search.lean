import Mathlib.Algebra.Group.Nat.Defs
import Mathlib.Tactic.Common
import OperandCodec.Computation.Inversion
/-!
# What a search finds

The search tries every raw value of a width. It finds exactly those that are
mapped to the target (`mem_of_search_found`), each once and in ascending
order, and fails exactly where every raw value has a fault
(`search_eq_failed_iff`).
-/

namespace OperandCodec
namespace Expr

variable {e : Expr} {target : Value} {width : Nat} {raw : Word}

theorem mem_domain : raw ∈ domain width ↔ raw.toNat < 2 ^ min width 16 := by
  have hpow : 2 ^ min width 16 ≤ 2 ^ 16 := Nat.pow_le_pow_right (by decide) (by omega)
  simp only [domain, List.mem_map, List.mem_range, Nat.one_shiftLeft]
  constructor
  · rintro ⟨n, hn, rfl⟩
    rw [BitVec.toNat_ofNat, Nat.mod_eq_of_lt (by omega)]
    exact hn
  · exact fun h => ⟨raw.toNat, h, BitVec.ofNat_toNat 16 raw ▸ by simp⟩

/-- The raw values of a width are tried in ascending order. -/
theorem domain_ascending (width : Nat) :
    (domain width).Pairwise fun r r' => r.toNat < r'.toNat := by
  have hpow : 2 ^ min width 16 ≤ 2 ^ 16 := Nat.pow_le_pow_right (by decide) (by omega)
  rw [domain, List.pairwise_map, Nat.one_shiftLeft]
  refine List.Pairwise.imp_of_mem (fun {m n} hm hn hmn => ?_) List.pairwise_lt_range
  rw [List.mem_range] at hm hn
  rw [BitVec.toNat_ofNat, BitVec.toNat_ofNat, Nat.mod_eq_of_lt (by omega),
    Nat.mod_eq_of_lt (by omega)]
  exact hmn

theorem hits_iff : e.hits target raw ↔ e.eval raw.toValue = .ok target := by
  unfold hits
  split <;> simp_all

theorem defined_iff : e.defined raw ↔ ∃ v, e.eval raw.toValue = .ok v := by
  unfold defined
  cases e.eval raw.toValue <;> simp [Except.isOk, Except.toBool]

/-- The raw value zero is tried at every width. -/
theorem zero_mem_domain (width : Nat) : (0 : Word) ∈ domain width :=
  mem_domain.2 (Nat.two_pow_pos _)

/-- **A search fails exactly where every raw value has a fault**, and then with that of zero. -/
theorem search_eq_failed_iff {fault : Fault} :
    e.search target width = .failed fault ↔ e.eval (Word.toValue 0) = .error fault ∧
      ∀ raw ∈ domain width, ¬ ∃ v, e.eval raw.toValue = .ok v := by
  unfold search
  split
  · rename_i v hv
    simp only [reduceCtorEq, false_iff]
    exact fun h => h.2 0 (zero_mem_domain width) ⟨v, hv⟩
  · -- zero has a fault, so it is another raw value that decides
    rename_i f hf
    split
    · rename_i hany
      obtain ⟨r, hr, hdef⟩ := List.any_eq_true.1 hany
      simp only [reduceCtorEq, false_iff]
      exact fun h => h.2 r hr (defined_iff.1 hdef)
    · rename_i hnone
      simp only [Inversion.failed.injEq, hf, Except.error.injEq]
      refine ⟨fun h => ⟨h, fun r hr hdef => ?_⟩, fun h => h.1⟩
      exact hnone (List.any_eq_true.2 ⟨r, hr, defined_iff.2 hdef⟩)

/-- What is found has been filtered from the raw values of the width. -/
theorem search_eq_found {raws : List Word} (h : e.search target width = .found raws) :
    raws = (domain width).filter (e.hits target) := by
  unfold search at h
  split at h
  · exact (Inversion.found.inj h).symm
  · split at h
    · exact (Inversion.found.inj h).symm
    · cases h

/-- **Nothing else is found, and nothing is missed.** -/
theorem mem_of_search_found {raws : List Word} (h : e.search target width = .found raws) :
    raw ∈ raws ↔ raw ∈ domain width ∧ e.eval raw.toValue = .ok target := by
  rw [search_eq_found h, List.mem_filter, hits_iff]

/-- What is found is in ascending order, so nothing is found twice. -/
theorem ascending_of_search_found {raws : List Word} (h : e.search target width = .found raws) :
    raws.Pairwise fun r r' => r.toNat < r'.toNat :=
  search_eq_found h ▸ (domain_ascending width).filter _

end Expr
end OperandCodec
