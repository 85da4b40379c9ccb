import OperandCodec.Json.Parser
import OperandCodec.Proofs.Json.Spans
/-!
# What is read as a value

The first character that is no space decides what a value is
(`gives_valueWith_iff`).
-/

namespace OperandCodec
namespace Json

/-- What a value may begin with, and how it goes on. -/
inductive ValueAt (inner : Option (Reader Json)) : List Char → Json → List Char → Prop where
  | null {cs t : List Char} :
      Leaves (keyword ['u', 'l', 'l'] cs) t → ValueAt inner ('n' :: cs) .null t
  | true {cs t : List Char} :
      Leaves (keyword ['r', 'u', 'e'] cs) t → ValueAt inner ('t' :: cs) (.bool true) t
  | false {cs t : List Char} :
      Leaves (keyword ['a', 'l', 's', 'e'] cs) t → ValueAt inner ('f' :: cs) (.bool false) t
  | string {cs t : List Char} {x : String} :
      Gives (stringBody cs) x t → ValueAt inner ('"' :: cs) (.string x) t
  | array {cs t : List Char} {element : Reader Json} {xs : List Json} : inner = some element →
      Gives (elements element cs) xs t → ValueAt inner ('[' :: cs) (.array xs) t
  | object {cs t : List Char} {field : Reader Json} {fs : List (String × Json)} :
      inner = some field → Gives (entries (collect field) [] cs) fs t →
      ValueAt inner ('\x7b' :: cs) (.object fs) t
  | number {c : Char} {cs t : List Char} {n : JsonNumber} : c = '-' ∨ c.isDigit →
      Gives (numeral (c :: cs)) n t → ValueAt inner (c :: cs) (.number n) t

section Values

variable {inner : Option (Reader Json)} {s t : List Char} {v : Json}

theorem gives_constant_iff {c : Json} {word cs : List Char} {h : cs.length < s.length} :
    Gives ((constant c word cs).map fun p => (p.1, p.2.widen h)) v t ↔
      c = v ∧ Leaves (keyword word cs) t := by
  rw [constant]
  cases keyword word cs with
  | error e => simp [Except.map, not_gives_error, not_leaves_error]
  | ok r => simp [Except.map, gives_ok_iff, leaves_ok_iff, Tail.widen]

/-- What is read inside becomes a value. -/
theorem gives_wrapped_iff {α : Type} {wrap : α → Json} {cs : List Char} {o : Outcome α cs}
    {h : cs.length ≤ s.length} :
    Gives (Outcome.widen (o.map fun p => (wrap p.1, p.2)) h) v t ↔
      ∃ x, Gives o x t ∧ wrap x = v := by
  rw [gives_widen_iff, gives_map_iff (g := wrap) fun _ _ => ⟨rfl, rfl⟩]

/-- **The first character behind the space decides** what is read, and how it goes on. -/
theorem gives_valueWith_iff :
    Gives (valueWith inner s) v t ↔ ValueAt inner (skipSpace s).1 v t := by
  unfold valueWith
  generalize skipSpace s = w
  obtain ⟨_ | ⟨c, w⟩, hw⟩ := w
  · simp only [not_gives_error, false_iff]
    nofun
  constructor
  · intro h
    simp only at h
    split at h
    · obtain ⟨rfl, hword⟩ := gives_constant_iff.1 h
      exact .null hword
    · obtain ⟨rfl, hword⟩ := gives_constant_iff.1 h
      exact .true hword
    · obtain ⟨rfl, hword⟩ := gives_constant_iff.1 h
      exact .false hword
    · obtain ⟨x, hx, rfl⟩ := gives_wrapped_iff.1 h
      exact .string hx
    · split at h
      · exact absurd h not_gives_error
      · obtain ⟨x, hx, rfl⟩ := gives_wrapped_iff.1 h
        exact .array rfl hx
    · split at h
      · exact absurd h not_gives_error
      · obtain ⟨x, hx, rfl⟩ := gives_wrapped_iff.1 h
        exact .object rfl hx
    · split at h
      · rename_i hc
        obtain ⟨x, hx, rfl⟩ := gives_wrapped_iff.1 h
        exact .number hc hx
      · exact absurd h not_gives_error
  · intro h
    cases h with
    | null hword => exact gives_constant_iff.2 ⟨rfl, hword⟩
    | true hword => exact gives_constant_iff.2 ⟨rfl, hword⟩
    | false hword => exact gives_constant_iff.2 ⟨rfl, hword⟩
    | string hx =>
      exact gives_wrapped_iff.2 ⟨_, hx, rfl⟩
    | array hinner hx =>
      subst hinner
      exact gives_wrapped_iff.2 ⟨_, hx, rfl⟩
    | object hinner hx =>
      subst hinner
      exact gives_wrapped_iff.2 ⟨_, hx, rfl⟩
    | number hc hx =>
      simp only
      split
      iterate 6 exact absurd hc (by decide)
      rw [if_pos hc]
      exact gives_wrapped_iff.2 ⟨_, hx, rfl⟩

end Values

/-- The reader of what arrays and objects hold, if they may be opened. -/
def innerReader : (levels : Nat) → Option (Reader Json)
  | 0 => none
  | n + 1 => some (value n)

/-- **A value is what stands behind the space.** -/
theorem gives_value_iff {levels : Nat} {s t : List Char} {v : Json} :
    Gives (value levels s) v t ↔ ValueAt (innerReader levels) (skipSpace s).1 v t := by
  cases levels with
  | zero => exact gives_valueWith_iff
  | succ n => exact gives_valueWith_iff

/-! ## Fields -/

/-- A reader makes a field of an entry. -/
def Entry.Gives (field : Reader Json) (e : Entry) (f : String × Json) : Prop :=
  e.key = f.1 ∧ Json.Gives (field e.start) f.2 e.rest

/-- **The fields of an object are read entry by entry.** -/
theorem gathers_collect_iff {field : Reader Json} {es : List Entry}
    {acc fs : List (String × Json)} : Gathers (collect field) acc es fs ↔
      ∃ gs, acc ++ gs = fs ∧ List.Forall₂ (Entry.Gives field) es gs := by
  induction es generalizing acc with
  | nil =>
    constructor
    · intro h
      cases h
      exact ⟨[], List.append_nil _, .nil⟩
    · rintro ⟨_, rfl, ⟨⟩⟩
      rw [List.append_nil]
      exact .nil
  | cons e es ih =>
    constructor
    · intro h
      cases h with
      | cons hread hvalue hgathers =>
        cases hread
        obtain ⟨v, hv, rfl⟩ :=
          (gives_map_iff (g := fun v => acc ++ [(e.key, v)]) fun _ _ => ⟨rfl, rfl⟩).1 hvalue
        obtain ⟨gs, rfl, hgs⟩ := ih.1 hgathers
        exact ⟨(e.key, v) :: gs, by simp, .cons ⟨rfl, hv⟩ hgs⟩
    · rintro ⟨_, rfl, hgs⟩
      cases hgs with
      | @cons _ f _ gs hf hgs =>
        obtain ⟨hkey, hv⟩ := hf
        have hvalue : Gives ((field e.start).map fun p => (acc ++ [(e.key, p.1)], p.2))
            (acc ++ [(e.key, f.2)]) e.rest :=
          (gives_map_iff (g := fun v => acc ++ [(e.key, v)]) fun _ _ => ⟨rfl, rfl⟩).2
            ⟨f.2, hv, rfl⟩
        refine .cons rfl hvalue (ih.2 ⟨gs, ?_, hgs⟩)
        rw [hkey, List.append_assoc, List.singleton_append]

end Json
end OperandCodec
