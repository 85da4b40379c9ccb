import Mathlib.Data.List.DropRight
import OperandCodec.Proofs.Json.Lexemes
import OperandCodec.Proofs.Json.Values
/-!
# Passing over what can be read

Whatever is read as a value is passed over as far as it was read
(`gives_skip_of_value`), although the two go through it in different ways:
a value is read by recursion into its arrays and objects, and passed over
with a stack of what is open around it. So what passing over a value does
has to be said together with what is passed over behind it, inside of all
that is open.
-/

namespace OperandCodec
namespace Json

variable {s t : List Char}

/-! ## Steps -/

section Steps

variable {around : List Frame} {f : Frame} {u w : List Char}

theorem skipValue_scalar_iff {r : Rest s} (hfront : skipFront s = .ok (.scalar r)) :
    Leaves (skipValue around s) u ↔ Leaves (skipBehind around r.1) u := by
  rw [skipValue, hfront]
  exact leaves_bind_ok_iff fun _ => rfl

/-- Behind an opening bracket stands its closing one, or a first value. -/
theorem skipValue_opening_iff {r : Rest s} {c : Char} {cs : List Char}
    (hfront : skipFront s = .ok (.opening f r)) (hr : (skipSpace r.1).1 = c :: cs) :
    Leaves (skipValue around s) u ↔
      if c = f.closing then Leaves (skipBehind around cs) u
      else ∃ w, Leaves (skipLabel f r.1) w ∧ Leaves (skipValue (f :: around) w) u := by
  rw [skipValue, hfront, ok_bind]
  simp only
  split
  · rename_i hspace
    simp [hspace] at hr
  · rename_i hspace
    rw [hspace] at hr
    obtain ⟨rfl, rfl⟩ := List.cons.inj hr
    split
    · exact leaves_bind_ok_iff fun _ => rfl
    · refine leaves_bind_iff fun w => ?_
      exact leaves_bind_ok_iff fun _ => rfl

/-- An array or an object may be empty. -/
theorem skipValue_closed {r : Rest s} {cs : List Char}
    (hfront : skipFront s = .ok (.opening f r)) (hr : (skipSpace r.1).1 = f.closing :: cs)
    (h : Leaves (skipBehind around cs) u) : Leaves (skipValue around s) u := by
  rw [skipValue_opening_iff hfront hr, if_pos rfl]
  exact h

/-- Or it has a first value. -/
theorem skipValue_first {r : Rest s} {c : Char} {cs : List Char}
    (hfront : skipFront s = .ok (.opening f r)) (hr : (skipSpace r.1).1 = c :: cs)
    (hc : c ≠ f.closing) (hlabel : Leaves (skipLabel f r.1) w)
    (h : Leaves (skipValue (f :: around) w) u) : Leaves (skipValue around s) u := by
  rw [skipValue_opening_iff hfront hr, if_neg hc]
  exact ⟨w, hlabel, h⟩

theorem leaves_skipBehind_nil : Leaves (skipBehind [] s) s := by
  rw [skipBehind]
  exact leaves_ok_iff.2 rfl

/-- Behind a value stands a comma with another value, or the closing bracket. -/
theorem skipBehind_cons_iff {c : Char} {cs : List Char} (hs : (skipSpace s).1 = c :: cs) :
    Leaves (skipBehind (f :: around) s) u ↔
      if c = ',' then ∃ w, Leaves (skipLabel f cs) w ∧ Leaves (skipValue (f :: around) w) u
      else c = f.closing ∧ Leaves (skipBehind around cs) u := by
  rw [skipBehind]
  split
  · rename_i hspace
    simp [hspace] at hs
  · rename_i hspace
    rw [hspace] at hs
    obtain ⟨rfl, rfl⟩ := List.cons.inj hs
    split
    · refine leaves_bind_iff fun w => ?_
      exact leaves_bind_ok_iff fun _ => rfl
    split
    · rename_i hclosing
      rw [and_iff_right hclosing]
      exact leaves_bind_ok_iff fun _ => rfl
    · rename_i hclosing
      simpa [hclosing, throw, throwThe, MonadExceptOf.throw] using not_leaves_error

/-- A frame is closed by its own bracket. -/
theorem skipBehind_closing {cs : List Char} (hs : (skipSpace s).1 = f.closing :: cs)
    (h : Leaves (skipBehind around cs) u) : Leaves (skipBehind (f :: around) s) u := by
  have hcomma : f.closing ≠ ',' := by
    cases f <;> decide
  rw [skipBehind_cons_iff hs, if_neg hcomma]
  exact ⟨rfl, h⟩

/-- A comma is passed over with the value behind it. -/
theorem skipBehind_comma {cs : List Char} (hs : (skipSpace s).1 = ',' :: cs)
    (hlabel : Leaves (skipLabel f cs) w) (h : Leaves (skipValue (f :: around) w) u) :
    Leaves (skipBehind (f :: around) s) u := by
  rw [skipBehind_cons_iff hs, if_pos rfl]
  exact ⟨w, hlabel, h⟩

end Steps

/-! ## Fronts -/

/-- What leaves a text is a scalar in front of it. -/
theorem exists_scalar_of_leaves {P : List Char → Prop}
    {o : Except JsonError {r : List Char // P r}} {g : {r : List Char // P r} → Rest s}
    (h : Leaves o t) (hg : ∀ r, (g r).1 = r.1) :
    ∃ r, o.map (fun r => Front.scalar (g r)) = .ok (.scalar r) ∧ r.1 = t := by
  obtain ⟨hr, rfl⟩ := h
  exact ⟨g ⟨t, hr⟩, rfl, hg _⟩

/-- The front of what is read as a value: a scalar, or the bracket of an array or an object. -/
theorem front_of_valueAt {inner : Option (Reader Json)} {v : Json}
    (h : ValueAt inner (skipSpace s).1 v t) :
    (∃ r, skipFront s = .ok (.scalar r) ∧ r.1 = t) ∨
      (∃ element xs r, inner = some element ∧ Gives (elements element r.1) xs t ∧
        skipFront s = .ok (.opening .array r)) ∨
      ∃ field fs r, inner = some field ∧ Gives (entries (collect field) [] r.1) fs t ∧
        skipFront s = .ok (.opening .object r) := by
  unfold skipFront
  generalize skipSpace s = w at h
  obtain ⟨_ | ⟨c, w⟩, hw⟩ := w
  · cases h
  cases h with
  | null hword => exact .inl (exists_scalar_of_leaves hword fun _ => rfl)
  | true hword => exact .inl (exists_scalar_of_leaves hword fun _ => rfl)
  | false hword => exact .inl (exists_scalar_of_leaves hword fun _ => rfl)
  | string hx => exact .inl (exists_scalar_of_leaves (leaves_of_stringBody hx) fun _ => rfl)
  | array hinner hxs => exact .inr (.inl ⟨_, _, ⟨_, hw⟩, hinner, hxs, rfl⟩)
  | object hinner hfs => exact .inr (.inr ⟨_, _, ⟨_, hw⟩, hinner, hfs, rfl⟩)
  | number hc hn =>
    left
    have hnumber := leaves_of_numeral hn
    by_cases hminus : c = '-'
    · subst hminus
      rw [if_pos rfl] at hnumber
      exact exists_scalar_of_leaves hnumber fun _ => rfl
    · rw [if_neg hminus] at hnumber
      have hdigit := hc.resolve_left hminus
      simp only
      split
      iterate 7 exact absurd hdigit (by decide)
      rw [if_pos hdigit]
      exact exists_scalar_of_leaves hnumber fun _ => rfl

/-! ## Values -/

/-- Whatever is read is passed over, behind as much space as there may be, together with what is
passed over behind it. -/
def Passed (read : Reader Json) : Prop :=
  ∀ ⦃s s' t u v around⦄, Gives (read s') v t → (skipSpace s).1 = (skipSpace s').1 →
    Leaves (skipBehind around t) u → Leaves (skipValue around s) u

section Passing

variable {read : Reader Json} {around : List Frame} {u : List Char}

theorem skipSpace_skipSpace (s : List Char) :
    (skipSpace (skipSpace s).1).1 = (skipSpace s).1 :=
  List.dropWhile_idempotent _ _

theorem passed_moreSpans {ps : List Span} {xs : List Json} (hread : Passed read)
    (hps : MoreSpans s ps t) (hvalues : List.Forall₂ (Span.Gives read) ps xs)
    (h : Leaves (skipBehind around t) u) : Leaves (skipBehind (.array :: around) s) u := by
  induction hps generalizing xs with
  | closed hs => exact skipBehind_closing hs h
  | element hs hstart _ _ ih =>
    cases hvalues with
    | cons hx hvalues =>
      refine skipBehind_comma hs (leaves_ok_iff.2 rfl) (hread hx ?_ (ih hvalues h))
      rw [← hstart]
      exact (skipSpace_skipSpace _).symm

theorem leaves_skipKey {q start : List Char} {key : String} (hs : (skipSpace s).1 = '"' :: q)
    (hkey : Labels q key start) : Leaves (skipKey s) start := by
  obtain ⟨r, hq, hr⟩ := hkey
  unfold skipKey
  generalize skipSpace s = w at hs
  obtain ⟨w, hw⟩ := w
  subst hs
  refine (leaves_bind_iff (C := fun r => (skipSpace r).1 = ':' :: start) ?_).2
    ⟨r, leaves_of_stringBody hq, hr⟩
  intro r
  generalize skipSpace r.1 = w
  obtain ⟨_ | ⟨c, w⟩, hw'⟩ := w
  · simpa [throw, throwThe, MonadExceptOf.throw] using not_leaves_error
  · by_cases hc : c = ':'
    · subst hc
      simpa [pure, Except.pure] using leaves_ok_iff
    · simpa [hc, throw, throwThe, MonadExceptOf.throw] using not_leaves_error

theorem passed_moreEntries {es : List Entry} {fs : List (String × Json)} (hread : Passed read)
    (hes : MoreEntries s es t) (hvalues : List.Forall₂ (Entry.Gives read) es fs)
    (h : Leaves (skipBehind around t) u) : Leaves (skipBehind (.object :: around) s) u := by
  induction hes generalizing fs with
  | closed hs => exact skipBehind_closing hs h
  | entry hs hu hkey _ ih =>
    cases hvalues with
    | cons hf hvalues =>
      exact skipBehind_comma hs ((leaves_skipKey hu hkey).map fun _ => rfl)
        (hread hf.2 rfl (ih hvalues h))

/-- What is held inside is passed over, so all of the value is. -/
theorem passed_valueWith {inner : Option (Reader Json)} (hinner : ∀ read ∈ inner, Passed read) :
    Passed (valueWith inner) := by
  intro s s' t u v around hv hspace h
  have hat := gives_valueWith_iff.1 hv
  rw [← hspace] at hat
  obtain ⟨r, hfront, rfl⟩ | ⟨element, xs, r, helement, hxs, hfront⟩ |
    ⟨field, fs, r, hfield, hfs, hfront⟩ := front_of_valueAt hat
  · exact (skipValue_scalar_iff hfront).2 h
  · obtain ⟨ps, hps, hvalues⟩ := gives_elements_iff.1 hxs
    have hread := hinner element helement
    cases hps with
    | closed hr => exact skipValue_closed hfront hr h
    | @element _ p ps hr hhead hps =>
      obtain ⟨c, cs, hstart, hc⟩ : ∃ c cs, p.start = c :: cs ∧ c ≠ ']' := by
        cases hstart : p.start with
        | nil => simp [hstart] at hhead
        | cons c cs => exact ⟨c, cs, rfl, by simpa [hstart] using hhead⟩
      cases hvalues with
      | cons hx hvalues =>
        refine skipValue_first hfront (hr.trans hstart) hc (leaves_ok_iff.2 rfl)
          (hread hx ?_ (passed_moreSpans hread hps hvalues h))
        rw [← hr]
        exact (skipSpace_skipSpace _).symm
  · obtain ⟨es, hes, hgathers⟩ := gives_entries_iff.1 hfs
    obtain ⟨gs, -, hvalues⟩ := gathers_collect_iff.1 hgathers
    have hread := hinner field hfield
    cases hes with
    | closed hr => exact skipValue_closed hfront hr h
    | entry hr hkey hes =>
      cases hvalues with
      | cons hf hvalues =>
        exact skipValue_first hfront hr (by decide) ((leaves_skipKey hr hkey).map fun _ => rfl)
          (hread hf.2 rfl (passed_moreEntries hread hes hvalues h))

theorem passed_value (levels : Nat) : Passed (value levels) := by
  induction levels with
  | zero => exact passed_valueWith (by simp)
  | succ n ih =>
    refine passed_valueWith ?_
    rintro _ ⟨⟩
    exact ih

end Passing

/-- **What is read as a value is passed over**, as far as it was read. -/
theorem gives_skip_of_value {levels : Nat} {v : Json} (h : Gives (value levels s) v t) :
    Gives (skip s) () t := by
  obtain ⟨hlt, he⟩ := passed_value levels h rfl leaves_skipBehind_nil
  exact ⟨hlt, by rw [skip, he]; rfl⟩

end Json
end OperandCodec
