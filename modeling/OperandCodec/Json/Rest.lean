/-!
# What is left of a text

A reader takes something off the front of a text. What is left is a `Rest`
where something was taken and a `Tail` where nothing may have been; the
types carry the bound on the length that ends a reader's loops. The
functions here say how the bounds go together, so that no reader has to.
-/

namespace OperandCodec
namespace Json

/-- What is left behind something: less than there was. -/
abbrev Rest (s : List Char) := { r : List Char // r.length < s.length }

/-- What is left behind something that may be empty. -/
abbrev Tail (s : List Char) := { r : List Char // r.length ≤ s.length }

namespace Tail

/-- All of a text. -/
def all (s : List Char) : Tail s :=
  ⟨s, Nat.le_refl _⟩

/-- The text behind the characters of a class at its front. -/
def dropWhile (p : Char → Bool) (s : List Char) : Tail s :=
  ⟨s.dropWhile p, (List.dropWhile_sublist p).length_le⟩

/-- The tail of a tail. -/
def andThen {s : List Char} (t : Tail s) (u : Tail t.1) : Tail s :=
  ⟨u.1, Nat.le_trans u.2 t.2⟩

/-- The rest of a tail. -/
def rest {s : List Char} (t : Tail s) (r : Rest t.1) : Rest s :=
  ⟨r.1, Nat.lt_of_lt_of_le r.2 t.2⟩

/-- A tail, seen from a text with one more character in front. -/
def cons {s : List Char} (t : Tail s) (c : Char) : Tail (c :: s) :=
  ⟨t.1, Nat.le_succ_of_le t.2⟩

/-- A tail, seen from a text with a character in front that is taken as well. -/
def behind {s : List Char} (t : Tail s) (c : Char) : Rest (c :: s) :=
  ⟨t.1, Nat.lt_succ_of_le t.2⟩

/-- A tail, seen from a longer text. -/
def widen {t : List Char} (u : Tail t) {s : List Char} (h : t.length < s.length) : Rest s :=
  ⟨u.1, Nat.lt_of_le_of_lt u.2 h⟩

end Tail

namespace Rest

/-- A rest is a tail. -/
def toTail {s : List Char} (r : Rest s) : Tail s :=
  ⟨r.1, Nat.le_of_lt r.2⟩

/-- The tail of a rest. -/
def andThen {s : List Char} (r : Rest s) (t : Tail r.1) : Rest s :=
  ⟨t.1, Nat.lt_of_le_of_lt t.2 r.2⟩

/-- A rest, seen from a text with one more character in front. -/
def cons {s : List Char} (r : Rest s) (c : Char) : Rest (c :: s) :=
  ⟨r.1, Nat.lt_succ_of_lt r.2⟩

/-- A rest, seen from a text that is not shorter. -/
def widen {t : List Char} (r : Rest t) {s : List Char} (h : t.length ≤ s.length) : Rest s :=
  ⟨r.1, Nat.lt_of_lt_of_le r.2 h⟩

end Rest

end Json
end OperandCodec
