import Mathlib.Tactic.Common
import OperandCodec.Proofs.Afresh
/-!
# The first failure decides

A list is gone through in order, and the first item at which a step fails
decides the error. `FirstWith` says which error that is, apart from any way
of going through the list. A step for each item (`mapM_eq_error_iff`) and a
fold whose failures do not depend on what has been gathered so far
(`foldlM_eq_error_iff`) both come to it.
-/

namespace OperandCodec

/-- The first item of a list to which there is an objection, with that objection. -/
inductive FirstWith {α ε : Type} (P : α → ε → Prop) : List α → ε → Prop where
  | here {a : α} {as : List α} {e : ε} : P a e → FirstWith P (a :: as) e
  | later {a : α} {as : List α} {e : ε} : (∀ e', ¬ P a e') → FirstWith P as e →
      FirstWith P (a :: as) e

section Lists

variable {α β ε : Type} {P : α → ε → Prop} {as bs : List α} {e : ε}

theorem not_firstWith_nil : ¬ FirstWith P [] e :=
  nofun

theorem firstWith_cons_iff {a : α} :
    FirstWith P (a :: as) e ↔ P a e ∨ (¬ ∃ e', P a e') ∧ FirstWith P as e := by
  rw [not_exists]
  constructor
  · intro h
    cases h with
    | here ha => exact .inl ha
    | later ha has => exact .inr ⟨ha, has⟩
  · rintro (ha | ⟨ha, has⟩)
    · exact .here ha
    · exact .later ha has

/-- The first objection is one to some item. -/
theorem FirstWith.exists_mem (h : FirstWith P as e) : ∃ a ∈ as, P a e := by
  induction h with
  | here ha => exact ⟨_, List.mem_cons_self, ha⟩
  | later _ _ ih =>
    obtain ⟨a, ha, hae⟩ := ih
    exact ⟨a, List.mem_cons_of_mem _ ha, hae⟩

/-- Where there is an objection to some item, one of them is the first. -/
theorem exists_firstWith_iff : (∃ e, FirstWith P as e) ↔ ∃ a ∈ as, ∃ e, P a e := by
  constructor
  · rintro ⟨e, h⟩
    obtain ⟨a, ha, hae⟩ := h.exists_mem
    exact ⟨a, ha, e, hae⟩
  · intro h
    induction as with
    | nil => simp at h
    | cons a as ih =>
      by_cases ha : ∃ e, P a e
      · obtain ⟨e, he⟩ := ha
        exact ⟨e, .here he⟩
      · obtain ⟨x, hx, hxe⟩ := h
        rcases List.mem_cons.1 hx with rfl | hx
        · exact absurd hxe ha
        · obtain ⟨e, he⟩ := ih ⟨x, hx, hxe⟩
          exact ⟨e, .later (not_exists.1 ha) he⟩

/-- The items behind others count where there is no objection to the others. -/
theorem firstWith_append_iff : FirstWith P (as ++ bs) e ↔
    FirstWith P as e ∨ (¬ ∃ e', FirstWith P as e') ∧ FirstWith P bs e := by
  induction as with
  | nil => simp [not_firstWith_nil]
  | cons a as ih =>
    rw [List.cons_append, firstWith_cons_iff, ih, firstWith_cons_iff, exists_firstWith_iff,
      exists_firstWith_iff, List.exists_mem_cons_iff, not_or]
    constructor
    · rintro (ha | ⟨ha, has | ⟨has, hbs⟩⟩)
      · exact .inl (.inl ha)
      · exact .inl (.inr ⟨ha, has⟩)
      · exact .inr ⟨⟨ha, has⟩, hbs⟩
    · rintro ((ha | ⟨ha, has⟩) | ⟨⟨ha, has⟩, hbs⟩)
      · exact .inl ha
      · exact .inr ⟨ha, .inl has⟩
      · exact .inr ⟨ha, .inr ⟨has, hbs⟩⟩

theorem firstWith_map_iff {f : β → α} {bs : List β} :
    FirstWith P (bs.map f) e ↔ FirstWith (fun b e => P (f b) e) bs e := by
  induction bs with
  | nil => simp [not_firstWith_nil]
  | cons b bs ih => rw [List.map_cons, firstWith_cons_iff, firstWith_cons_iff, ih]

theorem firstWith_toList_iff {o : Option α} : FirstWith P o.toList e ↔ ∃ a ∈ o, P a e := by
  cases o with
  | none => simp [not_firstWith_nil]
  | some a => simp [firstWith_cons_iff, not_firstWith_nil]

/-- Where there is one objection to each item of a kind, the first item of the kind is found. -/
theorem firstWith_find?_iff {p : α → Bool} {f : α → ε} :
    FirstWith (fun a e => p a ∧ e = f a) as e ↔ ∃ a, as.find? p = some a ∧ e = f a := by
  induction as with
  | nil => simp [not_firstWith_nil]
  | cons a as ih =>
    rw [firstWith_cons_iff, ih, List.find?_cons]
    cases p a <;> simp

/-- The first objection has only items before it to which there is none. -/
theorem firstWith_iff_split : FirstWith P as e ↔
    ∃ before a behind, as = before ++ a :: behind ∧ (∀ b ∈ before, ¬ ∃ e', P b e') ∧ P a e := by
  induction as with
  | nil => simp [not_firstWith_nil]
  | cons a as ih =>
    rw [firstWith_cons_iff, ih]
    constructor
    · rintro (ha | ⟨ha, before, a', behind, rfl, hbefore, ha'⟩)
      · exact ⟨[], a, as, rfl, List.forall_mem_nil _, ha⟩
      · exact ⟨a :: before, a', behind, rfl, List.forall_mem_cons.2 ⟨ha, hbefore⟩, ha'⟩
    · rintro ⟨before, a', behind, has, hbefore, ha'⟩
      cases before with
      | nil =>
        obtain ⟨rfl, rfl⟩ := List.cons.inj has
        exact .inl ha'
      | cons b before =>
        obtain ⟨rfl, rfl⟩ := List.cons.inj has
        obtain ⟨hb, hbefore⟩ := List.forall_mem_cons.1 hbefore
        exact .inr ⟨hb, before, a', behind, rfl, hbefore, ha'⟩

end Lists

section Steps

variable {α β ε : Type}

/-- What does not fail succeeds. -/
theorem exists_eq_ok_iff {x : Except ε α} : (∃ a, x = .ok a) ↔ ¬ ∃ e, x = .error e := by
  cases x <;> simp

theorem mapError_eq_error_iff {ε' : Type} {x : Except ε α} {f : ε → ε'} {e : ε'} :
    x.mapError f = .error e ↔ ∃ e', x = .error e' ∧ f e' = e := by
  cases x <;> simp [Except.mapError]

/-- A step that follows another fails where one of them does. -/
theorem bind_eq_error_iff {x : Except ε α} {f : α → Except ε β} {e : ε} :
    x >>= f = .error e ↔ x = .error e ∨ ∃ a, x = .ok a ∧ f a = .error e := by
  cases x with
  | error e' =>
    show Except.error e' = _ ↔ _
    simp
  | ok a =>
    show f a = _ ↔ _
    simp

/-- **A step for each item fails with the failure of the first item at which it fails.** -/
theorem mapM_eq_error_iff {f : α → Except ε β} {as : List α} {e : ε} :
    as.mapM f = .error e ↔ FirstWith (fun a e => f a = .error e) as e := by
  induction as with
  | nil =>
    rw [List.mapM_nil]
    exact ⟨nofun, nofun⟩
  | cons a as ih =>
    rw [List.mapM_cons, bind_eq_error_iff, firstWith_cons_iff, ← ih]
    refine or_congr_right ?_
    -- behind an item without failure only the rest of the list can fail
    have hrest : ∀ b, (as.mapM f >>= fun bs => pure (b :: bs)) = .error e ↔
        as.mapM f = .error e := by
      intro b
      rw [bind_eq_error_iff]
      exact ⟨fun h => h.resolve_right nofun, .inl⟩
    simp only [hrest, exists_and_right]
    rw [exists_eq_ok_iff]

/-- **So does a fold**, if its failures do not depend on what has been gathered so far. -/
theorem foldlM_eq_error_iff {f : β → α → Except ε β} {as : List α} {b : β} {e : ε}
    (hf : ∀ b b' a e, f b a = .error e ↔ f b' a = .error e) :
    as.foldlM f b = .error e ↔ FirstWith (fun a e => f b a = .error e) as e := by
  induction as generalizing b with
  | nil =>
    rw [List.foldlM_nil]
    exact ⟨nofun, nofun⟩
  | cons a as ih =>
    rw [List.foldlM_cons, bind_eq_error_iff, firstWith_cons_iff]
    refine or_congr_right ?_
    have hrest : ∀ b', as.foldlM f b' = .error e ↔
        FirstWith (fun a e => f b a = .error e) as e := by
      intro b'
      rw [ih]
      simp only [hf b' b]
    simp only [hrest, exists_and_right]
    rw [exists_eq_ok_iff]

end Steps

end OperandCodec
