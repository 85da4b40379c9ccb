import Mathlib.Data.List.Forall2
import Mathlib.Data.Nat.Init
import OperandCodec.Proofs.Json.Outcomes
/-!
# The spans of an array and of an object

A loop over an array or an object is taken apart into the stretches of text
that its values take (`Span`, and `Entry` with a key), and into what a reader
makes of each of them (`gives_elements_iff`, `gives_entries_iff`). The
spans are the same for all readers that take as much for each value, so that
two of them are compared value by value.
-/

namespace OperandCodec
namespace Json

/-! ## Arrays -/

/-- A stretch of text that a value takes: from where it begins to what is left behind it. -/
structure Span where
  start : List Char
  rest : List Char

/-- The spans of the elements behind an element of an array. -/
inductive MoreSpans : List Char → List Span → List Char → Prop where
  | closed {s t : List Char} : (skipSpace s).1 = ']' :: t → MoreSpans s [] t
  | element {s u t : List Char} {p : Span} {ps : List Span} : (skipSpace s).1 = ',' :: u →
      (skipSpace u).1 = p.start → p.start.head?.any (· ≠ ']') → MoreSpans p.rest ps t →
      MoreSpans s (p :: ps) t

/-- The spans of the elements of an array, behind its opening bracket. -/
inductive Spans : List Char → List Span → List Char → Prop where
  | closed {s t : List Char} : (skipSpace s).1 = ']' :: t → Spans s [] t
  | element {s t : List Char} {p : Span} {ps : List Span} : (skipSpace s).1 = p.start →
      p.start.head?.any (· ≠ ']') → MoreSpans p.rest ps t → Spans s (p :: ps) t

section Arrays

variable {α : Type} {element : Reader α} {s t : List Char} {xs : List α}

/-- What follows the look for a first element does not ask for bounds either. -/
theorem gives_firstSlot_iff {β : Type} {x : β} {f : Slot s → Outcome β s}
    {C D : List Char → Prop} (hclosed : ∀ r, Gives (f (.closed r)) x t ↔ C r.1)
    (helement : ∀ u, Gives (f (.element u)) x t ↔ D u.1) :
    Gives (firstSlot s >>= f) x t ↔
      (∃ r, (skipSpace s).1 = ']' :: r ∧ C r) ∨
        (skipSpace s).1.head?.any (· ≠ ']') ∧ D (skipSpace s).1 := by
  unfold firstSlot
  generalize skipSpace s = w
  obtain ⟨_ | ⟨c, w⟩, hw⟩ := w
  · simpa using not_gives_error
  · by_cases hc : c = ']'
    · subst hc
      simpa using hclosed ⟨w, hw⟩
    · simpa [hc] using helement ⟨c :: w, hw⟩

theorem gives_nextSlot_iff {β : Type} {x : β} {f : Slot s → Outcome β s}
    {C D : List Char → Prop} (hclosed : ∀ r, Gives (f (.closed r)) x t ↔ C r.1)
    (helement : ∀ u, Gives (f (.element u)) x t ↔ D u.1) :
    Gives (nextSlot s >>= f) x t ↔
      (∃ r, (skipSpace s).1 = ']' :: r ∧ C r) ∨
        ∃ u, (skipSpace s).1 = ',' :: u ∧
          (skipSpace u).1.head?.any (· ≠ ']') ∧ D (skipSpace u).1 := by
  unfold nextSlot
  generalize skipSpace s = w
  obtain ⟨_ | ⟨c, w⟩, hw⟩ := w
  · simpa using not_gives_error
  · by_cases hc : c = ']'
    · subst hc
      simpa using hclosed ⟨w, hw⟩
    · by_cases hcomma : c = ','
      · subst hcomma
        simp only [List.cons.injEq, Char.reduceEq, false_and, exists_false, true_and,
          exists_eq_left', false_or]
        generalize skipSpace w = w'
        obtain ⟨_ | ⟨c', w'⟩, hw'⟩ := w'
        · simpa using not_gives_error
        · by_cases hc' : c' = ']'
          · subst hc'
            simpa using not_gives_error
          · simpa [hc'] using helement ⟨c' :: w', _⟩
      · simpa [hc, hcomma] using not_gives_error

/-- An element, and the elements behind it. -/
theorem gives_element_iff {u : Tail s} {more : (r : List Char) → Outcome (List α) r} :
    Gives (element u.1 >>= fun p => more p.2.1 >>= fun p' =>
        (.ok (p.1 :: p'.1, (u.andThen p.2.toTail).rest p'.2) : Outcome (List α) s)) xs t ↔
      ∃ x r, Gives (element u.1) x r ∧ ∃ ys, Gives (more r) ys t ∧ x :: ys = xs := by
  refine gives_bind_iff fun x r => ?_
  exact gives_bind_ok_iff (g := fun ys => x :: ys) fun _ _ => ⟨rfl, rfl⟩

theorem gives_moreElements_step : Gives (moreElements element s) xs t ↔
    (∃ r, (skipSpace s).1 = ']' :: r ∧ [] = xs ∧ r = t) ∨
      ∃ u, (skipSpace s).1 = ',' :: u ∧ (skipSpace u).1.head?.any (· ≠ ']') ∧
        ∃ x r, Gives (element (skipSpace u).1) x r ∧
          ∃ ys, Gives (moreElements element r) ys t ∧ x :: ys = xs := by
  rw [moreElements]
  exact gives_nextSlot_iff
    (D := fun u => ∃ x r, Gives (element u) x r ∧
      ∃ ys, Gives (moreElements element r) ys t ∧ x :: ys = xs)
    (fun r => gives_ok_iff) fun u => gives_element_iff

theorem gives_elements_step : Gives (elements element s) xs t ↔
    (∃ r, (skipSpace s).1 = ']' :: r ∧ [] = xs ∧ r = t) ∨
      (skipSpace s).1.head?.any (· ≠ ']') ∧
        ∃ x r, Gives (element (skipSpace s).1) x r ∧
          ∃ ys, Gives (moreElements element r) ys t ∧ x :: ys = xs := by
  rw [elements]
  exact gives_firstSlot_iff
    (D := fun u => ∃ x r, Gives (element u) x r ∧
      ∃ ys, Gives (moreElements element r) ys t ∧ x :: ys = xs)
    (fun r => gives_ok_iff) fun u => gives_element_iff

/-- A reader makes a value of a span. -/
def Span.Gives (element : Reader α) (p : Span) (x : α) : Prop :=
  Json.Gives (element p.start) x p.rest

theorem gives_moreElements_iff : Gives (moreElements element s) xs t ↔
    ∃ ps, MoreSpans s ps t ∧ List.Forall₂ (Span.Gives element) ps xs := by
  constructor
  · intro h
    induction hn : s.length using Nat.strongRecOn generalizing s xs with
    | _ n ih =>
      obtain ⟨r, hs, rfl, rfl⟩ | ⟨u, hs, hu, x, r, hx, ys, hys, rfl⟩ := gives_moreElements_step.1 h
      · exact ⟨[], .closed hs, .nil⟩
      · have hlength : r.length < n := by
          have := hx.length_lt
          have := (skipSpace u).2
          have := (skipSpace s).2
          simp only [hs, List.length_cons] at this
          omega
        obtain ⟨ps, hps, hvalues⟩ := ih _ hlength hys rfl
        exact ⟨⟨(skipSpace u).1, r⟩ :: ps, .element hs rfl hu hps, .cons hx hvalues⟩
  · rintro ⟨ps, hps, hvalues⟩
    induction hps generalizing xs with
    | closed hs =>
      cases hvalues
      exact gives_moreElements_step.2 (.inl ⟨_, hs, rfl, rfl⟩)
    | element hs hu hhead _ ih =>
      cases hvalues with
      | cons hx hys =>
        rw [Span.Gives, ← hu] at hx
        rw [← hu] at hhead
        exact gives_moreElements_step.2 (.inr ⟨_, hs, hhead, _, _, hx, _, ih hys, rfl⟩)

/-- **The elements of an array are read span by span**, and the spans are there for any reader that
takes as much for each element. -/
theorem gives_elements_iff : Gives (elements element s) xs t ↔
    ∃ ps, Spans s ps t ∧ List.Forall₂ (Span.Gives element) ps xs := by
  rw [gives_elements_step]
  simp only [gives_moreElements_iff]
  constructor
  · rintro (⟨r, hs, rfl, rfl⟩ | ⟨hs, x, r, hx, ys, ⟨ps, hps, hvalues⟩, rfl⟩)
    · exact ⟨[], .closed hs, .nil⟩
    · exact ⟨⟨(skipSpace s).1, r⟩ :: ps, .element rfl hs hps, .cons hx hvalues⟩
  · rintro ⟨_, ⟨hs⟩ | ⟨hs, hhead, hps⟩, hvalues⟩
    · cases hvalues
      exact .inl ⟨_, hs, rfl, rfl⟩
    · cases hvalues with
      | cons hx hys =>
        rw [Span.Gives, ← hs] at hx
        rw [← hs] at hhead
        exact .inr ⟨hhead, _, _, hx, _, ⟨_, hps, hys⟩, rfl⟩

end Arrays

/-! ## Objects -/

/-- The value of a key takes this stretch of text. -/
structure Entry extends Span where
  key : String

/-- Behind its opening quote stand a key and a colon, and then this text. -/
def Labels (s : List Char) (key : String) (u : List Char) : Prop :=
  ∃ r, Gives (stringBody s) key r ∧ (skipSpace r).1 = ':' :: u

/-- The entries behind an entry of an object. -/
inductive MoreEntries : List Char → List Entry → List Char → Prop where
  | closed {s t : List Char} : (skipSpace s).1 = '}' :: t → MoreEntries s [] t
  | entry {s u q t : List Char} {e : Entry} {es : List Entry} : (skipSpace s).1 = ',' :: u →
      (skipSpace u).1 = '"' :: q → Labels q e.key e.start → MoreEntries e.rest es t →
      MoreEntries s (e :: es) t

/-- The entries of an object, behind its opening brace. -/
inductive Entries : List Char → List Entry → List Char → Prop where
  | closed {s t : List Char} : (skipSpace s).1 = '}' :: t → Entries s [] t
  | entry {s q t : List Char} {e : Entry} {es : List Entry} : (skipSpace s).1 = '"' :: q →
      Labels q e.key e.start → MoreEntries e.rest es t → Entries s (e :: es) t

/-- What a visitor gathers from entries. -/
inductive Gathers {β : Type} (visit : Visitor β) : β → List Entry → β → Prop where
  | nil {acc : β} : Gathers visit acc [] acc
  | cons {acc acc' x : β} {e : Entry} {es : List Entry} {read : Reader β} :
      visit acc e.key = .ok read → Gives (read e.start) acc' e.rest → Gathers visit acc' es x →
      Gathers visit acc (e :: es) x

section Objects

variable {β : Type} {visit : Visitor β} {acc x : β} {s t : List Char}

theorem gives_firstEntry_iff {f : EntrySlot s → Outcome β s} {C D : List Char → Prop}
    (hclosed : ∀ r, Gives (f (.closed r)) x t ↔ C r.1)
    (hkey : ∀ q, Gives (f (.key q)) x t ↔ D q.1) :
    Gives (firstEntry s >>= f) x t ↔
      (∃ r, (skipSpace s).1 = '}' :: r ∧ C r) ∨ ∃ q, (skipSpace s).1 = '"' :: q ∧ D q := by
  unfold firstEntry
  generalize skipSpace s = w
  obtain ⟨_ | ⟨c, w⟩, hw⟩ := w
  · simpa using not_gives_error
  · by_cases hc : c = '}'
    · subst hc
      simpa using hclosed ⟨w, hw⟩
    · by_cases hquote : c = '"'
      · subst hquote
        simpa using hkey ⟨w, hw⟩
      · simpa [hc, hquote] using not_gives_error

theorem gives_nextEntry_iff {f : EntrySlot s → Outcome β s} {C D : List Char → Prop}
    (hclosed : ∀ r, Gives (f (.closed r)) x t ↔ C r.1)
    (hkey : ∀ q, Gives (f (.key q)) x t ↔ D q.1) :
    Gives (nextEntry s >>= f) x t ↔
      (∃ r, (skipSpace s).1 = '}' :: r ∧ C r) ∨
        ∃ u, (skipSpace s).1 = ',' :: u ∧ ∃ q, (skipSpace u).1 = '"' :: q ∧ D q := by
  unfold nextEntry
  generalize skipSpace s = w
  obtain ⟨_ | ⟨c, w⟩, hw⟩ := w
  · simpa using not_gives_error
  · by_cases hc : c = '}'
    · subst hc
      simpa using hclosed ⟨w, hw⟩
    · by_cases hcomma : c = ','
      · subst hcomma
        simp only [List.cons.injEq, Char.reduceEq, false_and, exists_false, true_and,
          exists_eq_left', false_or]
        generalize skipSpace w = w'
        obtain ⟨_ | ⟨c', w'⟩, hw'⟩ := w'
        · simpa using not_gives_error
        · by_cases hquote : c' = '"'
          · subst hquote
            simpa using hkey ⟨w', _⟩
          · by_cases hc' : c' = '}'
            · subst hc'
              simpa using not_gives_error
            · simpa [hquote, hc'] using not_gives_error
      · simpa [hc, hcomma] using not_gives_error

theorem gives_entryValue_iff {read : Reader β} : Gives (entryValue read s) x t ↔
    ∃ u, (skipSpace s).1 = ':' :: u ∧ Gives (read u) x t := by
  unfold entryValue
  generalize skipSpace s = w
  obtain ⟨_ | ⟨c, w⟩, hw⟩ := w
  · simpa using not_gives_error
  · by_cases hc : c = ':'
    · subst hc
      simpa using gives_widen_iff
    · simpa [hc] using not_gives_error

theorem gives_entry_iff : Gives (entry visit acc s) x t ↔
    ∃ key u, Labels s key u ∧ ∃ read, visit acc key = .ok read ∧ Gives (read u) x t := by
  have hvalue : ∀ key (r : Rest s), Gives (visit acc key >>= fun read => (entryValue read r.1).map
      fun p => ((p.1, r.andThen p.2.toTail) : β × Rest s)) x t ↔
        ∃ read, visit acc key = .ok read ∧ ∃ u, (skipSpace r.1).1 = ':' :: u ∧
          Gives (read u) x t := by
    intro key r
    cases visit acc key with
    | error e => simpa using not_gives_error
    | ok read =>
      rw [ok_bind, gives_map_iff (g := id) fun _ _ => ⟨rfl, rfl⟩]
      simp [gives_entryValue_iff]
  rw [entry, gives_bind_iff (C := fun key r => ∃ read, visit acc key = .ok read ∧
    ∃ u, (skipSpace r).1 = ':' :: u ∧ Gives (read u) x t) hvalue]
  constructor
  · rintro ⟨key, r, hkey, read, hread, u, hr, hx⟩
    exact ⟨key, u, ⟨r, hkey, hr⟩, read, hread, hx⟩
  · rintro ⟨key, u, ⟨r, hkey, hr⟩, read, hread, hx⟩
    exact ⟨key, r, hkey, read, hread, u, hr, hx⟩

/-- An entry, and the entries behind it. -/
theorem gives_entry_bind_iff {q : Rest s} {more : β → (r : List Char) → Outcome β r} :
    Gives (entry visit acc q.1 >>= fun p => more p.1 p.2.1 >>= fun p' =>
        (.ok (p'.1, q.andThen (p.2.andThen p'.2.toTail).toTail) : Outcome β s)) x t ↔
      ∃ acc' r, Gives (entry visit acc q.1) acc' r ∧ Gives (more acc' r) x t := by
  refine gives_bind_iff fun acc' r => ?_
  refine (gives_bind_ok_iff (g := id) fun _ _ => ⟨rfl, rfl⟩).trans ?_
  simp only [id_eq, exists_eq_right]

theorem gives_moreEntries_step : Gives (moreEntries visit acc s) x t ↔
    (∃ r, (skipSpace s).1 = '\x7d' :: r ∧ acc = x ∧ r = t) ∨
      ∃ u, (skipSpace s).1 = ',' :: u ∧ ∃ q, (skipSpace u).1 = '"' :: q ∧
        ∃ acc' r, Gives (entry visit acc q) acc' r ∧ Gives (moreEntries visit acc' r) x t := by
  rw [moreEntries]
  exact gives_nextEntry_iff
    (D := fun q => ∃ acc' r, Gives (entry visit acc q) acc' r ∧
      Gives (moreEntries visit acc' r) x t)
    (fun r => gives_ok_iff) fun q => gives_entry_bind_iff

theorem gives_entries_step : Gives (entries visit acc s) x t ↔
    (∃ r, (skipSpace s).1 = '\x7d' :: r ∧ acc = x ∧ r = t) ∨
      ∃ q, (skipSpace s).1 = '"' :: q ∧
        ∃ acc' r, Gives (entry visit acc q) acc' r ∧ Gives (moreEntries visit acc' r) x t := by
  rw [entries]
  exact gives_firstEntry_iff
    (D := fun q => ∃ acc' r, Gives (entry visit acc q) acc' r ∧
      Gives (moreEntries visit acc' r) x t)
    (fun r => gives_ok_iff) fun q => gives_entry_bind_iff

theorem gives_moreEntries_iff : Gives (moreEntries visit acc s) x t ↔
    ∃ es, MoreEntries s es t ∧ Gathers visit acc es x := by
  constructor
  · intro h
    induction hn : s.length using Nat.strongRecOn generalizing s acc with
    | _ n ih =>
      obtain ⟨r, hs, rfl, rfl⟩ | ⟨u, hs, q, hu, acc', r, hentry, hmore⟩ :=
        gives_moreEntries_step.1 h
      · exact ⟨[], .closed hs, .nil⟩
      · have hlength : r.length < n := by
          have := hentry.length_lt
          have := (skipSpace u).2
          have := (skipSpace s).2
          simp only [hs, hu, List.length_cons] at *
          omega
        obtain ⟨key, start, hkey, read, hread, hvalue⟩ := gives_entry_iff.1 hentry
        obtain ⟨es, hes, hgathers⟩ := ih _ hlength hmore rfl
        exact ⟨⟨⟨start, r⟩, key⟩ :: es, .entry hs hu hkey hes, .cons hread hvalue hgathers⟩
  · rintro ⟨es, hes, hgathers⟩
    induction hes generalizing acc with
    | closed hs =>
      cases hgathers
      exact gives_moreEntries_step.2 (.inl ⟨_, hs, rfl, rfl⟩)
    | entry hs hu hkey _ ih =>
      cases hgathers with
      | cons hread hvalue hgathers =>
        exact gives_moreEntries_step.2 (.inr ⟨_, hs, _, hu, _, _,
          gives_entry_iff.2 ⟨_, _, hkey, _, hread, hvalue⟩, ih hgathers⟩)

/-- **The entries of an object are visited one by one**, and they are there for any visitor that
takes as much for each value. -/
theorem gives_entries_iff : Gives (entries visit acc s) x t ↔
    ∃ es, Entries s es t ∧ Gathers visit acc es x := by
  rw [gives_entries_step]
  simp only [gives_moreEntries_iff, gives_entry_iff]
  constructor
  · rintro (⟨r, hs, rfl, rfl⟩ | ⟨q, hs, acc', r, ⟨key, start, hkey, read, hread, hvalue⟩, es, hes,
      hgathers⟩)
    · exact ⟨[], .closed hs, .nil⟩
    · exact ⟨⟨⟨start, r⟩, key⟩ :: es, .entry hs hkey hes, .cons hread hvalue hgathers⟩
  · rintro ⟨_, ⟨hs⟩ | ⟨hs, hkey, hes⟩, hgathers⟩
    · cases hgathers
      exact .inl ⟨_, hs, rfl, rfl⟩
    · cases hgathers with
      | cons hread hvalue hgathers =>
        exact .inr ⟨_, hs, _, _, ⟨_, _, hkey, _, hread, hvalue⟩, _, hes, hgathers⟩

end Objects

end Json
end OperandCodec
