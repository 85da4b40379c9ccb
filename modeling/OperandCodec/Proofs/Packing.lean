import Mathlib.Algebra.Group.Int.Defs
import Mathlib.Data.List.Perm.Basic
import OperandCodec.Proofs.Afresh
import OperandCodec.Proofs.Fields
/-!
# Packing several fields

Values are packed into a word one after the other. Where their ranges are
apart, the order does not matter: the outcome is the one word that holds the
values and is otherwise the word of before (`packAll_eq_ok_iff`), and that
says nothing of an order. So a value that is packed first survives the
others, and `pack` into one range is the case of a single field.
-/

namespace OperandCodec
namespace Word

/-- Packs values into their ranges, one after the other. -/
def packAll (w : Word) (fields : List (BitRange × Value)) : Except RangeError Word :=
  fields.foldlM (fun w f => w.pack f.1 f.2) w

variable {w w₁ w' : Word} {b : BitRange} {v : Value} {fields fields' : List (BitRange × Value)}

/-! ## One field -/

/-- **A packed word is the one that holds the value and is otherwise the word of before.** -/
theorem pack_eq_ok_iff_holds : w.pack b v = .ok w' ↔
    (w'.unpack b).toValue = v ∧ ∀ i, i ∉ b → w'.getLsbD i = w.getLsbD i := by
  constructor
  · intro h
    obtain ⟨r, -, rfl⟩ := exists_raw_of_pack h
    refine ⟨congrArg toValue (unpack_pack h), fun i hi => ?_⟩
    rw [getLsbD_pack h, if_neg hi]
  · rintro ⟨rfl, hout⟩
    obtain ⟨w₁, h⟩ := exists_pack w (w'.unpack_le b)
    -- what is packed agrees with `w'` inside the range and outside
    have hsame : w₁ = w' := by
      refine eq_of_unpack_eq [b] (fun c hc => ?_) fun i hi => ?_
      · obtain rfl := List.mem_singleton.1 hc
        exact unpack_pack h
      · have hi : i ∉ b := hi b List.mem_cons_self
        rw [getLsbD_pack h, if_neg hi, hout i hi]
    rw [h, hsame]

/-- A value is packed exactly where it fits its range, whatever the word is. -/
theorem exists_pack_iff (w : Word) :
    (∃ w', w.pack b v = .ok w') ↔ 0 ≤ v.toInt ∧ v.toInt ≤ 2 ^ b.width - 1 := by
  have hmax : (b.maxValue : Int) = 2 ^ b.width - 1 := by
    have := Nat.two_pow_pos b.width
    rw [b.maxValue_eq]
    push_cast [Nat.one_le_two_pow]
    rfl
  simp only [pack_eq_ok_iff, exists_and_left, exists_eq, and_true, hmax]

/-- Whether a value is packed, and what comes of it, does not depend on what the range held. -/
theorem pack_congr (h : ∀ i, i ∉ b → w₁.getLsbD i = w.getLsbD i) : w₁.pack b v = w.pack b v := by
  have hiff : ∀ w', w₁.pack b v = .ok w' ↔ w.pack b v = .ok w' := by
    intro w'
    rw [pack_eq_ok_iff_holds, pack_eq_ok_iff_holds]
    exact and_congr_right fun _ => forall₂_congr fun i hi => by rw [h i hi]
  cases hw : w.pack b v with
  | ok w' => exact (hiff w').2 hw
  | error e =>
    rw [pack_eq_error_iff] at hw ⊢
    exact hw

/-! ## All fields -/

/-- All values are packed exactly where each fits its range. -/
theorem exists_packAll_iff (w : Word) : (∃ w', w.packAll fields = .ok w') ↔
    ∀ f ∈ fields, 0 ≤ f.2.toInt ∧ f.2.toInt ≤ 2 ^ f.1.width - 1 := by
  induction fields generalizing w with
  | nil => exact ⟨fun _ => nofun, fun _ => ⟨w, rfl⟩⟩
  | cons f fs ih =>
    rw [List.forall_mem_cons, ← exists_pack_iff w]
    simp only [packAll, List.foldlM_cons, bind_eq_ok_iff] at ih ⊢
    constructor
    · rintro ⟨w', w₁, hf, hfs⟩
      exact ⟨⟨w₁, hf⟩, (ih w₁).1 ⟨w', hfs⟩⟩
    · rintro ⟨⟨w₁, hf⟩, hfs⟩
      obtain ⟨w', hfs⟩ := (ih w₁).2 hfs
      exact ⟨w', w₁, hf, hfs⟩

/-- **What is packed into ranges apart is the one word that holds all values**, and is otherwise the
word of before. The induction goes along the fields; the others write outside the first. -/
theorem packAll_eq_ok_iff (h : fields.Pairwise fun f g => ∀ i, i ∈ f.1 → i ∉ g.1) :
    w.packAll fields = .ok w' ↔ (∀ f ∈ fields, (w'.unpack f.1).toValue = f.2) ∧
      ∀ i, (∀ f ∈ fields, i ∉ f.1) → w'.getLsbD i = w.getLsbD i := by
  induction fields generalizing w with
  | nil =>
    simp only [packAll, List.foldlM_nil, List.not_mem_nil, false_imp_iff, implies_true, true_and,
      true_imp_iff]
    constructor
    · intro h i
      rw [Except.ok.inj h]
    · intro h
      exact congrArg _ (BitVec.eq_of_getLsbD_eq fun i _ => (h i).symm)
  | cons f fs ih =>
    obtain ⟨hapart, hfs⟩ := List.pairwise_cons.1 h
    have hstep : w.packAll (f :: fs) = .ok w' ↔
        ∃ w₁, w.pack f.1 f.2 = .ok w₁ ∧ w₁.packAll fs = .ok w' := by
      rw [packAll, List.foldlM_cons, bind_eq_ok_iff]
      rfl
    simp only [hstep, ih hfs, pack_eq_ok_iff_holds, List.forall_mem_cons]
    constructor
    · rintro ⟨w₁, ⟨hf, hout⟩, hin, hout'⟩
      have hkept : w'.unpack f.1 = w₁.unpack f.1 :=
        unpack_eq_iff.2 fun i hi => hout' i fun g hg => hapart g hg i hi
      exact ⟨⟨hkept ▸ hf, hin⟩, fun i hi => (hout' i hi.2).trans (hout i hi.1)⟩
    · rintro ⟨⟨hf, hin⟩, hout⟩
      -- the word in between has what `w'` holds in the first range
      obtain ⟨w₁, hpack⟩ := exists_pack w (w'.unpack_le f.1)
      obtain ⟨hf₁, hout₁⟩ := pack_eq_ok_iff_holds.1 hpack
      refine ⟨w₁, ⟨hf₁.trans hf, hout₁⟩, hin, fun i hi => ?_⟩
      by_cases hif : i ∈ f.1
      · exact (unpack_eq_iff.1 (toValue_injective hf₁) i hif).symm
      · rw [hout i ⟨hif, hi⟩, hout₁ i hif]

/-- **Fields apart are independent.** Values are packed into them exactly where each fits its range.
Then the word is the same for every order, each range holds its value, the positions outside are as
before, and packing what a range holds changes nothing. Packing into a single range writes its
value over whatever was there, and nothing else. -/
theorem fields_independent (w : Word) (h : fields.Pairwise fun f g => f.1.overlaps g.1 = false) :
    ((∃ w', w.packAll fields = .ok w') ↔
      ∀ f ∈ fields, 0 ≤ f.2.toInt ∧ f.2.toInt ≤ 2 ^ f.1.width - 1) ∧
    (∀ w', w.packAll fields = .ok w' →
      (∀ fields', fields'.Perm fields → w.packAll fields' = .ok w') ∧
      (∀ f ∈ fields, (w'.unpack f.1).toValue = f.2) ∧
      (∀ i, (∀ f ∈ fields, i ∉ f.1) → w'.getLsbD i = w.getLsbD i) ∧
      ∀ b : BitRange, w'.pack b (w'.unpack b).toValue = .ok w') ∧
    ∀ (b : BitRange) (v : Value),
      (∀ w', w.pack b v = .ok w' →
        (w'.unpack b).toValue = v ∧ ∀ i, i ∉ b → w'.getLsbD i = w.getLsbD i) ∧
      ∀ w₁ : Word, (∀ i, i ∉ b → w₁.getLsbD i = w.getLsbD i) → w₁.pack b v = w.pack b v := by
  have hapart : fields.Pairwise fun f g => ∀ i, i ∈ f.1 → i ∉ g.1 := h.imp fun hfg i hf hg =>
    Bool.false_ne_true (hfg.symm.trans (BitRange.overlaps_iff.2 ⟨i, hf, hg⟩))
  refine ⟨exists_packAll_iff w, fun w' hw' => ?_, fun b v => ⟨fun w' => ?_, fun w₁ => pack_congr⟩⟩
  · obtain ⟨hin, hout⟩ := (packAll_eq_ok_iff hapart).1 hw'
    refine ⟨fun fields' hperm => ?_, hin, hout, fun b => pack_eq_ok_iff_holds.2 ⟨rfl, fun _ _ => rfl⟩⟩
    have hapart' := hperm.symm.pairwise hapart fun hfg i hg hf => hfg i hf hg
    refine (packAll_eq_ok_iff hapart').2 ⟨fun f hf => hin f (hperm.mem_iff.1 hf), fun i hi => ?_⟩
    exact hout i fun f hf => hi f (hperm.mem_iff.2 hf)
  · exact pack_eq_ok_iff_holds.1

/-- Three fields that leave two positions free. -/
def threeFields : List (BitRange × Value) :=
  [({ lo := 0, hi := 4 }, 5), ({ lo := 12, hi := 15 }, 0), ({ lo := 6, hi := 10 }, 31)]

/-- The three fields in two orders, packed into a word of ones. -/
theorem fields_independent_of_three :
    (threeFields.Pairwise fun f g => f.1.overlaps g.1 = false) ∧
      packAll 0xFFFF threeFields = .ok 0x0FE5 ∧
      packAll 0xFFFF threeFields.reverse = .ok 0x0FE5 ∧
      unpack 0x0FE5 { lo := 6, hi := 10 } = 31 := by
  have hapart : threeFields.Pairwise fun f g => f.1.overlaps g.1 = false := by decide
  have hpacked : packAll 0xFFFF threeFields = .ok 0x0FE5 := by decide
  obtain ⟨-, hall, -⟩ := fields_independent 0xFFFF hapart
  obtain ⟨horder, -, -, -⟩ := hall _ hpacked
  exact ⟨hapart, hpacked, horder _ (List.reverse_perm _), by decide⟩

end Word
end OperandCodec
