import OperandCodec.Computation.Sweep
import OperandCodec.Proofs.FirstFailure
import OperandCodec.Proofs.Search
/-!
# The preimage of a target

A search finds the raw values of its width that are mapped to the target,
all of them and no others, in ascending order. It fails where every raw
value has a fault, and only there (`Inverts`). One pass over the candidates
comes to the same: its invariant says of each of the three things it keeps
what it means for the candidates behind it (`Sweep.Covers`). That they
decide rightly at the end rests on raw value zero, which every width has:
where nothing has been evaluated, the first fault is that of zero.
-/

namespace OperandCodec

namespace Expr

variable {e : Expr} {target : Value} {width : Nat}

/-- A raw value of a width. -/
def InWidth (width : Nat) (raw : Word) : Prop :=
  raw.toNat < 2 ^ min width 16

/-- What an inversion says about the raw values of a width. -/
def Inverts (e : Expr) (target : Value) (width : Nat) : Inversion → Prop
  | .found raws =>
    (∃ raw, InWidth width raw ∧ ∃ v, e.eval raw.toValue = .ok v) ∧
      raws.Pairwise (·.toNat < ·.toNat) ∧
      ∀ raw, raw ∈ raws ↔ InWidth width raw ∧ e.eval raw.toValue = .ok target
  | .failed fault =>
    (∀ raw, InWidth width raw → ∃ f, e.eval raw.toValue = .error f) ∧
      e.eval (Word.toValue 0) = .error fault

theorem exists_fault {x : Value} (h : ¬ ∃ v, e.eval x = .ok v) : ∃ f, e.eval x = .error f := by
  by_contra hnone
  exact h (exists_eq_ok_iff.2 hnone)

theorem inWidth_zero (width : Nat) : InWidth width 0 :=
  Nat.two_pow_pos _

/-- Ascending lists of the same raw values are the same. -/
theorem eq_of_ascending {raws raws' : List Word} (h : raws.Pairwise (·.toNat < ·.toNat))
    (h' : raws'.Pairwise (·.toNat < ·.toNat)) (hmem : ∀ raw, raw ∈ raws ↔ raw ∈ raws') :
    raws = raws' := by
  have hnodup : ∀ {l : List Word}, l.Pairwise (·.toNat < ·.toNat) → l.Nodup := fun hl =>
    hl.imp fun hlt heq => Nat.ne_of_lt hlt (congrArg _ heq)
  have hperm : raws.Perm raws' := (List.perm_ext_iff_of_nodup (hnodup h) (hnodup h')).2 hmem
  exact hperm.eq_of_pairwise (fun r r' _ _ hlt hlt' => absurd hlt' (Nat.lt_asymm hlt)) h h'

/-- **Only one inversion is right.** -/
theorem Inverts.unique {i i' : Inversion} (h : e.Inverts target width i)
    (h' : e.Inverts target width i') : i = i' := by
  -- what has been found rules a failure out, since a raw value has a value or a fault
  have hexcludes : ∀ {raws fault}, e.Inverts target width (.found raws) →
      ¬ e.Inverts target width (.failed fault) := by
    rintro raws fault ⟨⟨raw, hraw, v, hv⟩, -⟩ ⟨hfaults, -⟩
    obtain ⟨f, hf⟩ := hfaults raw hraw
    cases hv.symm.trans hf
  rcases i with raws | fault <;> rcases i' with raws' | fault'
  · obtain ⟨-, hasc, hmem⟩ := h
    obtain ⟨-, hasc', hmem'⟩ := h'
    have hsame : ∀ raw, raw ∈ raws ↔ raw ∈ raws' := fun raw => (hmem raw).trans (hmem' raw).symm
    rw [eq_of_ascending hasc hasc' hsame]
  · exact absurd h' (hexcludes h)
  · exact absurd h (hexcludes h')
  · have hfault : fault = fault' := Except.error.inj (h.2.symm.trans h'.2)
    rw [hfault]

/-- **A search inverts.** -/
theorem inverts_search (e : Expr) (target : Value) (width : Nat) :
    e.Inverts target width (e.search target width) := by
  rcases hs : e.search target width with raws | fault
  · refine ⟨?_, ascending_of_search_found hs, fun raw => ?_⟩
    · -- a search without a value anywhere would have failed
      by_contra hnone
      have hfaults : ∀ raw ∈ domain width, ¬ ∃ v, e.eval raw.toValue = .ok v :=
        fun raw hraw hv => hnone ⟨raw, mem_domain.1 hraw, hv⟩
      obtain ⟨f, hf⟩ := exists_fault (hfaults 0 (zero_mem_domain width))
      rw [search_eq_failed_iff.2 ⟨hf, hfaults⟩] at hs
      cases hs
    · rw [mem_of_search_found hs, mem_domain]
      rfl
  · obtain ⟨hzero, hfaults⟩ := search_eq_failed_iff.1 hs
    exact ⟨fun raw hraw => exists_fault (hfaults raw (mem_domain.2 hraw)), hzero⟩

end Expr

/-! ## One pass -/

namespace Sweep

variable {e : Expr} {target v : Value} {fault : Fault} {n : Nat} {s : Sweep} {raw c : Word}

/-- What a pass keeps, said of the raw values below `n`. -/
structure Covers (e : Expr) (target : Value) (n : Nat) (s : Sweep) : Prop where
  ascending : s.raws.Pairwise (·.toNat < ·.toNat)
  mem_raws : ∀ raw, raw ∈ s.raws ↔ raw.toNat < n ∧ e.eval raw.toValue = .ok target
  evaluated : s.evaluated = true ↔ ∃ raw : Word, raw.toNat < n ∧ ∃ v, e.eval raw.toValue = .ok v
  faultless : s.firstFault = none →
    ∀ raw : Word, raw.toNat < n → ∃ v, e.eval raw.toValue = .ok v
  firstFault : ∀ fault, s.firstFault = some fault →
    ∃ raw : Word, raw.toNat < n ∧ e.eval raw.toValue = .error fault ∧
      ∀ raw' : Word, raw'.toNat < raw.toNat → ∃ v, e.eval raw'.toValue = .ok v

theorem covers_start (e : Expr) (target : Value) : Covers e target 0 start :=
  ⟨.nil, fun raw => by simp [start], by simp [start], fun _ _ hlt => absurd hlt (Nat.not_lt_zero _),
    nofun⟩

/-- A raw value up to the candidate is below it, or it is the candidate. -/
theorem lt_succ_iff (hc : c.toNat = n) : raw.toNat < n + 1 ↔ raw.toNat < n ∨ raw = c := by
  rw [← BitVec.toNat_inj, hc]
  omega

theorem visit_of_fault (hc : c.toNat = n) (heval : e.eval c.toValue = .error fault) :
    s.visit e target n = { s with firstFault := s.firstFault <|> some fault } := by
  rw [Word.toValue, hc] at heval
  rw [Sweep.visit, heval]

theorem visit_of_value (hc : c.toNat = n) (heval : e.eval c.toValue = .ok v) :
    s.visit e target n =
      { s with raws := if v = target then s.raws ++ [c] else s.raws, evaluated := true } := by
  have hraw : BitVec.ofNat 16 n = c := by
    rw [← hc, BitVec.ofNat_toNat, BitVec.setWidth_eq]
  rw [Word.toValue, hc] at heval
  rw [Sweep.visit, heval, hraw]

/-- A fault leaves what was found, and is kept where it is the first. -/
theorem Covers.visit_of_fault (h : Covers e target n s) (hc : c.toNat = n)
    (heval : e.eval c.toValue = .error fault) : Covers e target (n + 1) (s.visit e target n) := by
  have hnot : ∀ v, e.eval c.toValue ≠ .ok v := by
    intro v hv
    cases heval.symm.trans hv
  rw [Sweep.visit_of_fault hc heval]
  refine ⟨h.ascending, fun raw => ?_, ?_, fun hnone => ?_, fun f hf => ?_⟩
  · rw [h.mem_raws, lt_succ_iff hc]
    refine ⟨fun ⟨hlt, hok⟩ => ⟨.inl hlt, hok⟩, ?_⟩
    rintro ⟨hlt | rfl, hok⟩
    · exact ⟨hlt, hok⟩
    · exact absurd hok (hnot target)
  · rw [h.evaluated]
    refine ⟨fun ⟨raw, hlt, hok⟩ => ⟨raw, (lt_succ_iff hc).2 (.inl hlt), hok⟩, ?_⟩
    rintro ⟨raw, hlt, v, hok⟩
    obtain hlt | rfl := (lt_succ_iff hc).1 hlt
    · exact ⟨raw, hlt, v, hok⟩
    · exact absurd hok (hnot v)
  · -- behind a fault there is a first one
    cases hfirst : s.firstFault <;> simp [hfirst] at hnone
  · cases hfirst : s.firstFault with
    | some g =>
      obtain rfl : g = f := by simpa [hfirst] using hf
      obtain ⟨raw, hlt, hraw, hbefore⟩ := h.firstFault g hfirst
      exact ⟨raw, (lt_succ_iff hc).2 (.inl hlt), hraw, hbefore⟩
    | none =>
      obtain rfl : fault = f := by simpa [hfirst] using hf
      exact ⟨c, (lt_succ_iff hc).2 (.inr rfl), heval, hc ▸ h.faultless hfirst⟩

/-- A value is put down behind the others where it is the target. -/
theorem Covers.visit_of_value (h : Covers e target n s) (hc : c.toNat = n)
    (heval : e.eval c.toValue = .ok v) : Covers e target (n + 1) (s.visit e target n) := by
  rw [Sweep.visit_of_value hc heval]
  refine ⟨?_, fun raw => ?_, ⟨fun _ => ?_, fun _ => rfl⟩, fun hnone raw hlt => ?_, fun f hf => ?_⟩
  · show (if v = target then s.raws ++ [c] else s.raws).Pairwise _
    split
    · refine List.pairwise_append.2 ⟨h.ascending, List.pairwise_singleton _ c, ?_⟩
      intro raw hraw c' hc'
      obtain rfl := List.mem_singleton.1 hc'
      exact hc ▸ ((h.mem_raws raw).1 hraw).1
    · exact h.ascending
  · have hhit : e.eval c.toValue = .ok target ↔ v = target := by
      rw [heval, Except.ok.injEq]
    show raw ∈ (if v = target then s.raws ++ [c] else s.raws) ↔ _
    rw [lt_succ_iff hc, or_and_right]
    have hcandidate : raw = c ∧ e.eval raw.toValue = .ok target ↔ raw = c ∧ v = target := by
      refine and_congr_right ?_
      rintro rfl
      exact hhit
    rw [hcandidate, ← h.mem_raws]
    by_cases hv : v = target <;> simp [hv]
  · exact ⟨c, (lt_succ_iff hc).2 (.inr rfl), v, heval⟩
  · obtain hlt | rfl := (lt_succ_iff hc).1 hlt
    · exact h.faultless hnone raw hlt
    · exact ⟨v, heval⟩
  · obtain ⟨raw, hlt, hraw, hbefore⟩ := h.firstFault f hf
    exact ⟨raw, (lt_succ_iff hc).2 (.inl hlt), hraw, hbefore⟩

/-- **A step covers the candidate too.** -/
theorem Covers.visit (h : Covers e target n s) (hn : n < 2 ^ 16) :
    Covers e target (n + 1) (s.visit e target n) := by
  have hc : (BitVec.ofNat 16 n).toNat = n := by
    rw [BitVec.toNat_ofNat, Nat.mod_eq_of_lt hn]
  rcases heval : e.eval (Word.toValue (BitVec.ofNat 16 n)) with fault | v
  · exact h.visit_of_fault hc heval
  · exact h.visit_of_value hc heval

/-- **A pass covers what it has gone through.** -/
theorem covers_foldl (e : Expr) (target : Value) (hn : n ≤ 2 ^ 16) :
    Covers e target n ((List.range n).foldl (visit e target) start) := by
  induction n with
  | zero => exact covers_start e target
  | succ n ih =>
    rw [List.range_succ, List.foldl_append, List.foldl_cons, List.foldl_nil]
    exact (ih (by omega)).visit hn

theorem covers_sweep (e : Expr) (target : Value) (width : Nat) :
    Covers e target (2 ^ min width 16) (e.sweep target width) := by
  have hpow : 2 ^ min width 16 ≤ 2 ^ 16 := Nat.pow_le_pow_right (by decide) (by omega)
  rw [Expr.sweep, Nat.one_shiftLeft]
  exact covers_foldl e target hpow

/-- **What a pass comes to inverts.** -/
theorem inverts_outcome (e : Expr) (target : Value) (width : Nat) :
    e.Inverts target width (e.sweep target width).outcome := by
  have h := covers_sweep e target width
  have hzero : Expr.InWidth width 0 := Expr.inWidth_zero width
  unfold outcome
  rcases hfirst : (e.sweep target width).firstFault with - | fault
  · exact ⟨⟨0, hzero, h.faultless hfirst 0 hzero⟩, h.ascending, h.mem_raws⟩
  rcases hevaluated : (e.sweep target width).evaluated with - | -
  · have hnone : ∀ raw, Expr.InWidth width raw → ¬ ∃ v, e.eval raw.toValue = .ok v := by
      intro raw hraw hv
      exact Bool.false_ne_true (hevaluated.symm.trans (h.evaluated.2 ⟨raw, hraw, hv⟩))
    obtain ⟨raw, -, hfault, hbefore⟩ := h.firstFault fault hfirst
    -- every raw value below the one with the first fault has a value, so there is none below it
    have hraw : raw = 0 := by
      refine BitVec.eq_of_toNat_eq (Nat.eq_zero_of_not_pos fun hpos => ?_)
      exact hnone 0 hzero (hbefore 0 hpos)
    exact ⟨fun raw hraw => Expr.exists_fault (hnone raw hraw), hraw ▸ hfault⟩
  · exact ⟨h.evaluated.1 hevaluated, h.ascending, h.mem_raws⟩

end Sweep

/-- **A search finds the exact preimage.** What is found is the ascending list of exactly the raw
values of the width that are mapped to the target, provided that the expression has a value at any
of them. Where it has a fault at all of them, and only there, the search fails, with the fault of
raw value zero. One pass over the candidates comes to the same. -/
theorem Expr.search_finds_exact_preimage (e : Expr) (target : Value) (width : Nat) :
    (∀ raws, e.search target width = .found raws ↔
      (∃ raw : Word, raw.toNat < 2 ^ min width 16 ∧ ∃ v, e.eval raw.toValue = .ok v) ∧
      raws.Pairwise (·.toNat < ·.toNat) ∧
      ∀ raw, raw ∈ raws ↔ raw.toNat < 2 ^ min width 16 ∧ e.eval raw.toValue = .ok target) ∧
    (∀ fault, e.search target width = .failed fault ↔
      (∀ raw : Word, raw.toNat < 2 ^ min width 16 → ∃ f, e.eval raw.toValue = .error f) ∧
      e.eval (Word.toValue 0) = .error fault) ∧
    (e.sweep target width).outcome = e.search target width := by
  have hiff : ∀ i, e.search target width = i ↔ e.Inverts target width i := fun i =>
    ⟨fun h => h ▸ e.inverts_search target width, (e.inverts_search target width).unique⟩
  refine ⟨fun raws => hiff (.found raws), fun fault => hiff (.failed fault), ?_⟩
  exact (Sweep.inverts_outcome e target width).unique (e.inverts_search target width)

/-- Six is divided by zero first, and then hits three at two. -/
example : (Expr.binary .div (.literal 6) .var).search 3 2 = .found [2] ∧
    (Expr.binary .div .var (.literal 0)).search 3 2 = .failed .divisionByZero := by
  decide +kernel

end OperandCodec
