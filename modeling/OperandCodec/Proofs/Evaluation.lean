import Mathlib.Tactic.Common
import OperandCodec.Expr.Eval
/-!
# Evaluation is exact

A tree has the value that it has over the unbounded integers, or it faults
at the first of its nodes that offends (`eval_exact_or_first_fault`). Which
nodes offend is said of the unbounded integers alone (`Offends`). The order
of the nodes is that of `Expr.postorder`: operands before their operator,
and the left operand first. So a node is reached only when everything below
it has a value, and there the checked operation and the exact one agree
(`apply_eq_error_iff`).
-/

namespace OperandCodec

open OperandCodec.Expr

/-- The nodes of a tree from left to right, operands before their operator. -/
def Expr.postorder : Expr → List Expr
  | literal n => [literal n]
  | var => [var]
  | negate e => e.postorder ++ [negate e]
  | binary op l r => l.postorder ++ r.postorder ++ [binary op l r]

/-- What a node does wrong where the variable is `x`, with its operands and its result taken over
the unbounded integers. -/
inductive Offends (x : Int) : Expr → Fault → Prop where
  | divisionByZero {l r : Expr} : r.exact x = some 0 → Offends x (binary .div l r) .divisionByZero
  | moduloByZero {l r : Expr} : r.exact x = some 0 → Offends x (binary .rem l r) .moduloByZero
  /-- The remainder of the least value by `-1`, although it is zero. -/
  | remainder {l r : Expr} : l.exact x = some Int64.minValue.toInt → r.exact x = some (-1) →
      Offends x (binary .rem l r) .overflow
  | outOfRange {e : Expr} {n : Int} : e.exact x = some n →
      n < Int64.minValue.toInt ∨ Int64.maxValue.toInt < n → Offends x e .overflow

/-- No node of a list offends. -/
def NoneOffends (x : Int) (nodes : List Expr) : Prop :=
  ∀ s ∈ nodes, ∀ f, ¬ Offends x s f

/-- The first node of a list that offends does so with the fault. -/
inductive FirstOffence (x : Int) : List Expr → Fault → Prop where
  | here {s : Expr} {nodes : List Expr} {f : Fault} : Offends x s f → FirstOffence x (s :: nodes) f
  | later {s : Expr} {nodes : List Expr} {f : Fault} : (∀ f', ¬ Offends x s f') →
      FirstOffence x nodes f → FirstOffence x (s :: nodes) f

variable {x : Int} {l r : Expr} {f f' : Fault} {ls rs : List Expr}

/-! ## Single nodes -/

theorem exact_eq_none_of_zero {op : BinaryOp} (hop : op = .div ∨ op = .rem)
    (hr : r.exact x = some 0) : (binary op l r).exact x = none := by
  rcases hop with rfl | rfl <;> simp [exact, hr, BinaryOp.exact]

/-- A node offends in one way. -/
theorem Offends.unique {s : Expr} (h : Offends x s f) (h' : Offends x s f') : f = f' := by
  cases h with
  | divisionByZero hr =>
    cases h' with
    | divisionByZero => rfl
    | outOfRange hn => cases (exact_eq_none_of_zero (.inl rfl) hr).symm.trans hn
  | moduloByZero hr =>
    cases h' with
    | moduloByZero => rfl
    | remainder _ hr' => cases hr.symm.trans hr'
    | outOfRange hn => cases (exact_eq_none_of_zero (.inr rfl) hr).symm.trans hn
  | remainder _ hr =>
    cases h' with
    | moduloByZero hr' => cases hr.symm.trans hr'
    | remainder | outOfRange => rfl
  | outOfRange hn =>
    cases h' with
    | divisionByZero hr => cases (exact_eq_none_of_zero (.inl rfl) hr).symm.trans hn
    | moduloByZero hr => cases (exact_eq_none_of_zero (.inr rfl) hr).symm.trans hn
    | remainder | outOfRange => rfl

/-- A node with a value, but for a remainder, offends by its range alone. -/
theorem offends_iff_of_exact {s : Expr} {n : Int} (hs : s.exact x = some n)
    (hrem : ∀ l r, s ≠ binary .rem l r) : Offends x s f ↔
      f = .overflow ∧ (n < Int64.minValue.toInt ∨ Int64.maxValue.toInt < n) := by
  constructor
  · intro h
    cases h with
    | divisionByZero hr => cases (exact_eq_none_of_zero (.inl rfl) hr).symm.trans hs
    | moduloByZero | remainder => exact absurd rfl (hrem _ _)
    | outOfRange hn hrange =>
      obtain rfl := Option.some.inj (hs.symm.trans hn)
      exact ⟨rfl, hrange⟩
  · rintro ⟨rfl, hrange⟩
    exact .outOfRange hs hrange

theorem checked_eq_ok_iff {n : Int} {v : Value} : checked n = .ok v ↔ v.toInt = n := by
  rw [← Value.ofInt?_eq_some_iff, checked]
  cases Value.ofInt? n <;> simp

theorem checked_eq_error_iff {n : Int} : checked n = .error f ↔
    f = .overflow ∧ (n < Int64.minValue.toInt ∨ Int64.maxValue.toInt < n) := by
  rw [← Value.ofInt?_eq_none_iff, checked]
  cases Value.ofInt? n <;> simp [eq_comm]

/-- A node whose value is a logical one does not offend, if it is no remainder. -/
theorem not_offends_of_value {s : Expr} {v : Value} (hs : s.exact x = some v.toInt)
    (hrem : ∀ l r, s ≠ binary .rem l r) : ¬ Offends x s f := by
  rw [offends_iff_of_exact hs hrem, ← checked_eq_error_iff, checked_eq_ok_iff.2 rfl]
  exact nofun

section Operators

variable {op : BinaryOp} {a b : Value}

theorem toInt_ne_zero (hb : b ≠ 0) : b.toInt ≠ 0 :=
  mt (Int64.toInt_inj (y := 0)).1 hb

theorem exact_binary (hl : l.exact x = some a.toInt) (hr : r.exact x = some b.toInt) :
    (binary op l r).exact x = op.exact a.toInt b.toInt := by
  simp [exact, hl, hr]

/-- A result of the checked operation is the exact one. -/
theorem exact_of_apply {v : Value} (h : op.apply a b = .ok v) :
    op.exact a.toInt b.toInt = some v.toInt := by
  cases op with
  | add | sub | mul => exact congrArg some (checked_eq_ok_iff.1 h).symm
  | div =>
    by_cases hb : b = 0
    · simp [BinaryOp.apply, hb] at h
    · rw [BinaryOp.apply, if_neg hb, checked_eq_ok_iff] at h
      rw [BinaryOp.exact, if_neg (toInt_ne_zero hb), h]
  | rem =>
    by_cases hb : b = 0
    · simp [BinaryOp.apply, hb] at h
    · by_cases hmin : a = Int64.minValue ∧ b = -1
      · simp [BinaryOp.apply, hmin] at h
      · rw [BinaryOp.apply, if_neg hb, if_neg hmin, checked_eq_ok_iff] at h
        rw [BinaryOp.exact, if_neg (toInt_ne_zero hb), h]

/-- A remainder with a divisor other than zero offends by its operands or by its range. -/
theorem offends_rem_iff (hl : l.exact x = some a.toInt) (hr : r.exact x = some b.toInt)
    (hb : b ≠ 0) : Offends x (binary .rem l r) f ↔
      f = .overflow ∧ ((a = Int64.minValue ∧ b = -1) ∨
        a.toInt.tmod b.toInt < Int64.minValue.toInt ∨
          Int64.maxValue.toInt < a.toInt.tmod b.toInt) := by
  have hexact : (binary .rem l r).exact x = some (a.toInt.tmod b.toInt) := by
    rw [exact_binary hl hr, BinaryOp.exact, if_neg (toInt_ne_zero hb)]
  constructor
  · intro h
    cases h with
    | moduloByZero hr' =>
      exact absurd (Option.some.inj (hr.symm.trans hr')) (toInt_ne_zero hb)
    | remainder hl' hr' =>
      have ha : a = Int64.minValue := Int64.toInt_inj.1 (Option.some.inj (hl.symm.trans hl'))
      have hb' : b = -1 := Int64.toInt_inj.1 (Option.some.inj (hr.symm.trans hr'))
      exact ⟨rfl, .inl ⟨ha, hb'⟩⟩
    | outOfRange hn hrange =>
      obtain rfl := Option.some.inj (hexact.symm.trans hn)
      exact ⟨rfl, .inr hrange⟩
  · rintro ⟨rfl, ⟨rfl, rfl⟩ | hrange⟩
    · exact .remainder hl hr
    · exact .outOfRange hexact hrange

/-- **A node faults exactly where it offends**, once its operands have values. -/
theorem apply_eq_error_iff (hl : l.exact x = some a.toInt) (hr : r.exact x = some b.toInt) :
    op.apply a b = .error f ↔ Offends x (binary op l r) f := by
  have hexact : (binary op l r).exact x = op.exact a.toInt b.toInt := exact_binary hl hr
  -- a fault of a zero divisor is one offence, and a node has no other
  have hzero : ∀ {g}, Offends x (binary op l r) g →
      ((.error g : Except Fault Value) = .error f ↔ Offends x (binary op l r) f) := fun hg =>
    ⟨fun h => Except.error.inj h ▸ hg, fun h => congrArg _ (hg.unique h)⟩
  cases op with
  | add | sub | mul =>
    rw [offends_iff_of_exact hexact nofun, ← checked_eq_error_iff]
    rfl
  | div =>
    by_cases hb : b = 0
    · subst hb
      exact hzero (.divisionByZero hr)
    · rw [BinaryOp.exact, if_neg (toInt_ne_zero hb)] at hexact
      rw [offends_iff_of_exact hexact nofun, ← checked_eq_error_iff, BinaryOp.apply, if_neg hb]
  | rem =>
    by_cases hb : b = 0
    · subst hb
      exact hzero (.moduloByZero hr)
    · rw [offends_rem_iff hl hr hb, BinaryOp.apply, if_neg hb]
      by_cases hmin : a = Int64.minValue ∧ b = -1
      · rw [if_pos hmin, and_iff_left (.inl hmin), Except.error.injEq, eq_comm]
      · rw [if_neg hmin, checked_eq_error_iff, or_iff_right hmin]

end Operators

/-! ## First offences -/

theorem FirstOffence.append_right (h : FirstOffence x ls f) : FirstOffence x (ls ++ rs) f := by
  induction h with
  | here hs => exact .here hs
  | later hs _ ih => exact .later hs ih

theorem FirstOffence.append_left (hls : NoneOffends x ls) (h : FirstOffence x rs f) :
    FirstOffence x (ls ++ rs) f := by
  induction ls with
  | nil => exact h
  | cons s ls ih =>
    obtain ⟨hs, hls⟩ := List.forall_mem_cons.1 hls
    exact .later hs (ih hls)

theorem FirstOffence.not_noneOffends (h : FirstOffence x ls f) : ¬ NoneOffends x ls := by
  induction h with
  | here hs => exact fun hnone => hnone _ List.mem_cons_self _ hs
  | later _ _ ih => exact fun hnone => ih (List.forall_mem_cons.1 hnone).2

theorem FirstOffence.unique (h : FirstOffence x ls f) (h' : FirstOffence x ls f') : f = f' := by
  induction h with
  | here hs =>
    cases h' with
    | here hs' => exact hs.unique hs'
    | later hs' => exact absurd hs (hs' _)
  | later hs _ ih =>
    cases h' with
    | here hs' => exact absurd hs' (hs _)
    | later _ h' => exact ih h'

/-! ## Trees -/

/-- What evaluation says of a tree: the value that is exact, where nothing offends, or the fault of
the first offence. -/
def Evaluated (x : Int) (e : Expr) : Except Fault Value → Prop
  | .ok v => e.exact x = some v.toInt ∧ NoneOffends x e.postorder
  | .error f => FirstOffence x e.postorder f

/-- The last node of a tree is looked at once nothing below it offends. -/
theorem evaluated_of_last {e : Expr} {below : List Expr} {outcome : Except Fault Value}
    (horder : e.postorder = below ++ [e]) (hbelow : NoneOffends x below)
    (hok : ∀ v, outcome = .ok v → e.exact x = some v.toInt)
    (herror : ∀ f, outcome = .error f ↔ Offends x e f) : Evaluated x e outcome := by
  cases outcome with
  | ok v =>
    have hnot : NoneOffends x [e] := by
      rintro s hs f hoffends
      obtain rfl := List.mem_singleton.1 hs
      cases (herror f).2 hoffends
    refine ⟨hok v rfl, ?_⟩
    rw [horder]
    exact List.forall_mem_append.2 ⟨hbelow, hnot⟩
  | error f =>
    show FirstOffence x e.postorder f
    rw [horder]
    exact .append_left hbelow (.here ((herror f).1 rfl))

/-- A node without operands has its value. -/
theorem evaluated_leaf {e : Expr} {v : Value} (horder : e.postorder = [e])
    (hexact : e.exact x = some v.toInt) (hrem : ∀ l r, e ≠ binary .rem l r) :
    Evaluated x e (.ok v) := by
  have hbelow : NoneOffends x [] := nofun
  refine evaluated_of_last horder hbelow ?_ fun f => ⟨nofun, fun h => ?_⟩
  · rintro _ ⟨⟩
    exact hexact
  · exact absurd h (not_offends_of_value hexact hrem)

/-- **Evaluation finds the exact value or the first offence.** The operands of a node are evaluated
in the order in which their nodes are listed, so the first fault among them is the first offence. -/
theorem evaluated_eval (e : Expr) (x : Value) : Evaluated x.toInt e (e.eval x) := by
  induction e with
  | literal n => exact evaluated_leaf (v := n) rfl rfl nofun
  | var => exact evaluated_leaf (v := x) rfl rfl nofun
  | negate e ih =>
    rw [eval]
    cases he : e.eval x with
    | error f =>
      rw [he] at ih
      exact FirstOffence.append_right ih
    | ok a =>
      rw [he] at ih
      obtain ⟨hexact, hnone⟩ := ih
      have hn : (negate e).exact x.toInt = some (-a.toInt) := by simp [exact, hexact]
      refine evaluated_of_last rfl hnone (fun v hv => ?_) fun f => ?_
      · rw [hn, checked_eq_ok_iff.1 hv]
      · rw [offends_iff_of_exact hn nofun]
        exact checked_eq_error_iff
  | binary op l r ihl ihr =>
    rw [eval]
    cases hl : l.eval x with
    | error f =>
      rw [hl] at ihl
      exact FirstOffence.append_right (FirstOffence.append_right ihl)
    | ok a =>
      rw [hl] at ihl
      obtain ⟨hlexact, hlnone⟩ := ihl
      cases hr : r.eval x with
      | error f =>
        rw [hr] at ihr
        exact FirstOffence.append_right (FirstOffence.append_left hlnone ihr)
      | ok b =>
        rw [hr] at ihr
        obtain ⟨hrexact, hrnone⟩ := ihr
        have hnone := List.forall_mem_append.2 ⟨hlnone, hrnone⟩
        refine evaluated_of_last rfl hnone (fun v hv => ?_) fun f => ?_
        · rw [exact_binary hlexact hrexact]
          exact exact_of_apply hv
        · exact apply_eq_error_iff hlexact hrexact

/-- **Evaluation is exact or faults, and never gives a wrong value.** A tree has a value exactly
where it has the same one over the unbounded integers and no node offends; otherwise it has the
fault of the first node that does, operands before their operator and from left to right. -/
theorem eval_exact_or_first_fault (e : Expr) (x : Value) :
    (∀ v, e.eval x = .ok v ↔
      e.exact x.toInt = some v.toInt ∧ NoneOffends x.toInt e.postorder) ∧
      ∀ f, e.eval x = .error f ↔ FirstOffence x.toInt e.postorder f := by
  have heval := evaluated_eval e x
  cases h : e.eval x with
  | ok v =>
    rw [h] at heval
    obtain ⟨hexact, hnone⟩ := heval
    refine ⟨fun v' => ⟨?_, fun h' => ?_⟩, fun f => ⟨nofun, fun h' => absurd hnone ?_⟩⟩
    · rintro ⟨⟩
      exact ⟨hexact, hnone⟩
    · rw [Int64.toInt_inj.1 (Option.some.inj (hexact.symm.trans h'.1))]
    · exact h'.not_noneOffends
  | error f =>
    rw [h] at heval
    have hfirst : FirstOffence x.toInt e.postorder f := heval
    refine ⟨fun v => ⟨nofun, fun h' => absurd h'.2 hfirst.not_noneOffends⟩, fun f' => ⟨?_, ?_⟩⟩
    · rintro ⟨⟩
      exact hfirst
    · exact fun h' => congrArg _ (hfirst.unique h')

/-- The quotient overflows before the divisor of the remainder is looked at. -/
example : (binary .rem (binary .div (literal Int64.minValue) (literal (-1))) (literal 0)).eval 0 =
    .error .overflow := rfl

end OperandCodec
