import Mathlib.Data.List.Forall2
import Mathlib.Tactic.Common
import OperandCodec.Computation.Monad
/-!
# Answers that are found afresh

Whatever asks for trees and inversions is written over a monad that answers.
Answered afresh, nothing is left of the monad but an outcome (`afresh`), and
the laws here take a calculation apart step by step at that level.
-/

namespace OperandCodec

/-- A step that follows another succeeds where both do. -/
theorem bind_eq_ok_iff {ε α β : Type} {x : Except ε α} {f : α → Except ε β} {b : β} :
    x >>= f = .ok b ↔ ∃ a, x = .ok a ∧ f a = .ok b := by
  cases x with
  | error e =>
    constructor
    · intro h
      cases h
    · rintro ⟨_, h, -⟩
      cases h
  | ok a =>
    constructor
    · exact fun h => ⟨a, rfl, h⟩
    · rintro ⟨_, h, hf⟩
      cases h
      exact hf

/-- Restating an error does not make a success of it. -/
theorem mapError_eq_ok_iff {ε ε' α : Type} {x : Except ε α} {f : ε → ε'} {a : α} :
    x.mapError f = .ok a ↔ x = .ok a := by
  cases x <;> simp [Except.mapError]

/-- A step for each item succeeds with the results of all of them, in order. -/
theorem mapM_eq_ok_iff {ε α β : Type} {f : α → Except ε β} {as : List α} {bs : List β} :
    as.mapM f = .ok bs ↔ List.Forall₂ (fun a b => f a = .ok b) as bs := by
  induction as generalizing bs with
  | nil =>
    rw [List.mapM_nil, List.forall₂_nil_left_iff]
    exact ⟨fun h => (Except.ok.inj h).symm, fun h => congrArg _ h.symm⟩
  | cons a as ih =>
    rw [List.mapM_cons, List.forall₂_cons_left_iff]
    simp only [bind_eq_ok_iff, ih]
    constructor
    · rintro ⟨b, hb, bs', hbs, h⟩
      exact ⟨b, bs', hb, hbs, (Except.ok.inj h).symm⟩
    · rintro ⟨b, bs', hb, hbs, rfl⟩
      exact ⟨b, hb, bs', hbs, rfl⟩

/-- A step for each item succeeds where each step does. -/
theorem exists_mapM_eq_ok {ε α β : Type} {f : α → Except ε β} {as : List α}
    (h : ∀ a ∈ as, ∃ b, f a = .ok b) : ∃ bs, as.mapM f = .ok bs := by
  induction as with
  | nil => exact ⟨[], rfl⟩
  | cons a as ih =>
    obtain ⟨b, hb⟩ := h a List.mem_cons_self
    obtain ⟨bs, hbs⟩ := ih fun x hx => h x (List.mem_cons_of_mem a hx)
    exact ⟨b :: bs, by rw [List.mapM_cons, hb, hbs]; rfl⟩

/-- Steps that are the same for each item of a list give the same. -/
theorem mapM_congr {m : Type → Type} [Monad m] [LawfulMonad m] {α β : Type} {f g : α → m β}
    {as : List α} (h : ∀ a ∈ as, f a = g a) : as.mapM f = as.mapM g := by
  induction as with
  | nil => rfl
  | cons a as ih =>
    rw [List.mapM_cons, List.mapM_cons, h a List.mem_cons_self,
      ih fun x hx => h x (List.mem_cons_of_mem a hx)]

theorem foldlM_congr {m : Type → Type} [Monad m] {α β : Type} {f g : β → α → m β} {b : β}
    {as : List α} (h : ∀ a ∈ as, ∀ b, f b a = g b a) : as.foldlM f b = as.foldlM g b := by
  induction as generalizing b with
  | nil => rfl
  | cons a as ih =>
    rw [List.foldlM_cons, List.foldlM_cons, h a List.mem_cons_self]
    exact bind_congr fun b => ih fun x hx => h x (List.mem_cons_of_mem a hx)

/-- What a step for each item gives came from one of the items. -/
theorem exists_mem_of_mem_mapM {ε α β : Type} {f : α → Except ε β} {as : List α} {bs : List β}
    {b : β} (h : as.mapM f = .ok bs) (hb : b ∈ bs) : ∃ a ∈ as, f a = .ok b := by
  rw [mapM_eq_ok_iff] at h
  induction h with
  | nil => cases hb
  | @cons a b' as bs hab _ ih =>
    rcases List.mem_cons.1 hb with rfl | hb
    · exact ⟨a, List.mem_cons_self, hab⟩
    · obtain ⟨x, hx, hxb⟩ := ih hb
      exact ⟨x, List.mem_cons_of_mem a hx, hxb⟩

/-- The outcome of a calculation whose questions are answered afresh. -/
def afresh {ε α : Type} (x : ExceptT ε Id α) : Except ε α :=
  Id.run x.run

section Laws

variable {ε α β : Type}

@[simp] theorem afresh_pure (a : α) : afresh (pure a : ExceptT ε Id α) = .ok a := rfl

@[simp] theorem afresh_throw (e : ε) : afresh (throw e : ExceptT ε Id α) = .error e := rfl

@[simp] theorem afresh_ofExcept (x : Except ε α) :
    afresh (MonadExcept.ofExcept x : ExceptT ε Id α) = x := by
  cases x <;> rfl

@[simp] theorem afresh_bind (x : ExceptT ε Id α) (f : α → ExceptT ε Id β) :
    afresh (x >>= f) = afresh x >>= fun a => afresh (f a) := by
  unfold afresh
  rw [ExceptT.run_bind, Id.run_bind]
  cases Id.run x.run <;> rfl

/-- Throwing a restated error restates the error of the outcome. -/
@[simp] theorem afresh_tryCatch_throw (x : ExceptT ε Id α) (f : ε → ε) :
    afresh (tryCatch x fun e => throw (f e)) = (afresh x).mapError f := by
  unfold afresh
  rw [ExceptT.run_tryCatch, Id.run_bind]
  cases Id.run x.run <;> rfl

@[simp] theorem afresh_adapt {ε' : Type} (x : ExceptT ε Id α) (f : ε → ε') :
    afresh (ExceptT.adapt f x) = (afresh x).mapError f := rfl

@[simp] theorem afresh_foldlM (f : β → α → ExceptT ε Id β) (b : β) (as : List α) :
    afresh (as.foldlM f b) = as.foldlM (fun b a => afresh (f b a)) b := by
  induction as generalizing b with
  | nil => rfl
  | cons a as ih => simp only [List.foldlM_cons, afresh_bind, ih]

@[simp] theorem afresh_mapM (f : α → ExceptT ε Id β) (as : List α) :
    afresh (as.mapM f) = as.mapM fun a => afresh (f a) := by
  induction as with
  | nil => rfl
  | cons a as ih => simp only [List.mapM_cons, afresh_bind, afresh_pure, ih]; rfl

end Laws

/-- An inversion that is searched afresh gives the raw values found, or the fault of a failure. -/
theorem afresh_invert (c : Computation) (target : Value) (width : Nat) :
    afresh (c.invert target width) = match c.expr.search target width with
      | .found raws => .ok raws
      | .failed fault => .error (c.faultError fault) := by
  rw [Computation.invert, afresh_bind]
  show (Except.ok (c.expr.search target width) >>= fun _ => _) = _
  cases c.expr.search target width <;> rfl

end OperandCodec
