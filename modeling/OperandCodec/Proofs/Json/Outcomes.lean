import Mathlib.Tactic.Common
import OperandCodec.Json.Reader
import OperandCodec.Proofs.Afresh
/-!
# Outcomes without their bounds

The bound on what is left ends the loops of the readers and has no place in
what is said about them: `Gives` is an outcome with its value and with what
is left as a plain text, and the laws here take an outcome apart at that
level.
-/

namespace OperandCodec
namespace Json

variable {α β : Type} {P Q : List Char → Prop} {x : α} {t : List Char}

/-- An outcome is this value, with this text left. -/
def Gives (o : Except JsonError (α × {r : List Char // P r})) (x : α) (t : List Char) : Prop :=
  ∃ h, o = .ok (x, ⟨t, h⟩)

/-- An outcome without a value leaves this text. -/
def Leaves (o : Except JsonError {r : List Char // P r}) (t : List Char) : Prop :=
  ∃ h, o = .ok ⟨t, h⟩

@[simp] theorem ok_bind {ε : Type} (y : β) (f : β → Except ε α) : Except.ok y >>= f = f y := rfl

@[simp] theorem error_bind {ε : Type} (e : ε) (f : β → Except ε α) :
    (Except.error e : Except ε β) >>= f = .error e := rfl

theorem map_eq_ok_iff {ε : Type} {o : Except ε β} {f : β → α} {a : α} :
    o.map f = .ok a ↔ ∃ y, o = .ok y ∧ f y = a := by
  cases o <;> simp [Except.map]

theorem gives_ok_iff {y : α} {r : {r : List Char // P r}} :
    Gives (.ok (y, r)) x t ↔ y = x ∧ r.1 = t := by
  constructor
  · rintro ⟨h, he⟩
    cases he
    exact ⟨rfl, rfl⟩
  · rintro ⟨rfl, rfl⟩
    exact ⟨r.2, rfl⟩

theorem not_gives_error {e : JsonError} :
    ¬ Gives (.error e : Except JsonError (α × {r : List Char // P r})) x t := by
  rintro ⟨h, he⟩
  cases he

/-- What follows an outcome does not ask for its bound. -/
theorem gives_bind_iff {o : Except JsonError (β × {r : List Char // Q r})}
    {f : β × {r : List Char // Q r} → Except JsonError (α × {r : List Char // P r})}
    {C : β → List Char → Prop} (hf : ∀ y r, Gives (f (y, r)) x t ↔ C y r.1) :
    Gives (o >>= f) x t ↔ ∃ y u, Gives o y u ∧ C y u := by
  constructor
  · rintro ⟨h, he⟩
    obtain ⟨⟨y, r⟩, hy, hx⟩ := bind_eq_ok_iff.1 he
    exact ⟨y, r.1, ⟨r.2, hy⟩, (hf y r).1 ⟨h, hx⟩⟩
  · rintro ⟨y, u, ⟨h, hy⟩, hc⟩
    rw [hy]
    exact (hf y ⟨u, h⟩).2 hc

/-- A step that changes the value, and sees the rest from another text. -/
theorem gives_bind_ok_iff {o : Except JsonError (β × {r : List Char // Q r})}
    {f : β × {r : List Char // Q r} → α × {r : List Char // P r}} {g : β → α}
    (hf : ∀ y r, (f (y, r)).1 = g y ∧ (f (y, r)).2.1 = r.1) :
    Gives (o >>= fun p => .ok (f p)) x t ↔ ∃ y, Gives o y t ∧ g y = x := by
  rw [gives_bind_iff (C := fun y u => g y = x ∧ u = t)]
  · constructor
    · rintro ⟨y, u, hy, hx, rfl⟩
      exact ⟨y, hy, hx⟩
    · rintro ⟨y, hy, hx⟩
      exact ⟨y, t, hy, hx, rfl⟩
  · intro y r
    rw [← (hf y r).1, ← (hf y r).2]
    exact gives_ok_iff

/-- A step that leaves the text alone has no say in what is left. -/
theorem gives_bind_rest_iff {o : Except JsonError β} {f : β → α} {r : {r : List Char // P r}} :
    Gives (o >>= fun y => .ok (f y, r)) x t ↔ (∃ y, o = .ok y ∧ f y = x) ∧ r.1 = t := by
  cases o with
  | error e => simp [not_gives_error]
  | ok y => simp [gives_ok_iff]

theorem gives_map_iff {o : Except JsonError (β × {r : List Char // Q r})}
    {f : β × {r : List Char // Q r} → α × {r : List Char // P r}} {g : β → α}
    (hf : ∀ y r, (f (y, r)).1 = g y ∧ (f (y, r)).2.1 = r.1) :
    Gives (o.map f) x t ↔ ∃ y, Gives o y t ∧ g y = x := by
  have hbind : o.map f = o >>= fun p => .ok (f p) := by
    cases o <;> rfl
  rw [hbind, gives_bind_ok_iff hf]

theorem gives_widen_iff {s s' : List Char} {o : Outcome α s} {h : s.length ≤ s'.length} :
    Gives (o.widen h) x t ↔ Gives o x t := by
  rw [Outcome.widen, gives_map_iff (g := id) fun _ _ => ⟨rfl, rfl⟩]
  simp

/-- A text is read in one way. -/
theorem Gives.unique {o : Except JsonError (α × {r : List Char // P r})} {y : α} {u : List Char}
    (h : Gives o x t) (h' : Gives o y u) : x = y ∧ t = u := by
  obtain ⟨_, rfl⟩ := h
  exact gives_ok_iff.1 h'

theorem Gives.length_lt {s : List Char} {o : Outcome α s} (h : Gives o x t) :
    t.length < s.length :=
  h.1

/-! ## Outcomes without a value -/

theorem leaves_ok_iff {r : {r : List Char // P r}} : Leaves (.ok r) t ↔ r.1 = t := by
  constructor
  · rintro ⟨h, he⟩
    cases he
    rfl
  · rintro rfl
    exact ⟨r.2, rfl⟩

theorem not_leaves_error {e : JsonError} :
    ¬ Leaves (.error e : Except JsonError {r : List Char // P r}) t := by
  rintro ⟨h, he⟩
  cases he

theorem leaves_bind_iff {o : Except JsonError {r : List Char // Q r}}
    {f : {r : List Char // Q r} → Except JsonError {r : List Char // P r}}
    {C : List Char → Prop} (hf : ∀ r, Leaves (f r) t ↔ C r.1) :
    Leaves (o >>= f) t ↔ ∃ u, Leaves o u ∧ C u := by
  constructor
  · rintro ⟨h, he⟩
    obtain ⟨r, hr, ht⟩ := bind_eq_ok_iff.1 he
    exact ⟨r.1, ⟨r.2, hr⟩, (hf r).1 ⟨h, ht⟩⟩
  · rintro ⟨u, ⟨h, hr⟩, hc⟩
    rw [hr]
    exact (hf ⟨u, h⟩).2 hc

theorem leaves_bind_ok_iff {o : Except JsonError {r : List Char // Q r}}
    {f : {r : List Char // Q r} → {r : List Char // P r}} (hf : ∀ r, (f r).1 = r.1) :
    Leaves (o >>= fun r => .ok (f r)) t ↔ Leaves o t := by
  rw [leaves_bind_iff (C := fun u => u = t) fun r => by rw [leaves_ok_iff, hf]]
  simp only [exists_eq_right]

theorem leaves_map_iff {o : Except JsonError {r : List Char // Q r}}
    {f : {r : List Char // Q r} → {r : List Char // P r}} (hf : ∀ r, (f r).1 = r.1) :
    Leaves (o.map f) t ↔ Leaves o t := by
  have hbind : o.map f = o >>= fun r => .ok (f r) := by
    cases o <;> rfl
  rw [hbind, leaves_bind_ok_iff hf]

theorem Leaves.map {o : Except JsonError {r : List Char // Q r}}
    {f : {r : List Char // Q r} → {r : List Char // P r}} (h : Leaves o t)
    (hf : ∀ r, (f r).1 = r.1) : Leaves (o.map f) t :=
  (leaves_map_iff hf).2 h

end Json
end OperandCodec
