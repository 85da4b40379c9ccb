/-!
# Pieces of a text

Cuts a text at every occurrence of a character: the lines of a file, the
names of a path. A text without the character is one piece, and so is the
empty text (`pieces_ne_nil`); no piece holds the character
(`not_mem_of_mem_pieces`).
-/

namespace OperandCodec
namespace Text

/-- The pieces of a text with another character in front. -/
def extendPieces (sep c : Char) (parts : List (List Char)) : List (List Char) :=
  if c = sep then [] :: parts
  else match parts with
    | [] => [[c]]
    | p :: ps => (c :: p) :: ps

/-- The pieces of a text between the occurrences of a character. -/
def pieces (sep : Char) (s : List Char) : List (List Char) :=
  s.foldr (extendPieces sep) [[]]

theorem pieces_cons (sep c : Char) (s : List Char) :
    pieces sep (c :: s) = extendPieces sep c (pieces sep s) :=
  rfl

theorem pieces_ne_nil (sep : Char) (s : List Char) : pieces sep s ≠ [] := by
  cases s with
  | nil => simp [pieces]
  | cons c s =>
    rw [pieces_cons]
    unfold extendPieces
    split
    · simp
    · split <;> simp

theorem not_mem_of_mem_pieces {sep : Char} {s p : List Char} (h : p ∈ pieces sep s) : sep ∉ p := by
  induction s generalizing p with
  | nil => simp_all [pieces]
  | cons c s ih =>
    rw [pieces_cons] at h
    unfold extendPieces at h
    split at h
    · rcases List.mem_cons.1 h with rfl | h
      · simp
      · exact ih h
    · rename_i hc
      split at h
      · exact absurd ‹_› (pieces_ne_nil sep s)
      · rename_i q qs hq
        rcases List.mem_cons.1 h with rfl | h
        · intro hm
          rcases List.mem_cons.1 hm with rfl | hm
          · exact hc rfl
          · exact ih (hq ▸ List.mem_cons_self) hm
        · exact ih (hq ▸ List.mem_cons_of_mem q h)

example : pieces '/' "./a//b".toList = [".".toList, "a".toList, [], "b".toList] := by
  decide +kernel

end Text
end OperandCodec
