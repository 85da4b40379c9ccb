import Mathlib.Data.List.Induction
import OperandCodec.Proofs.Scanning
import OperandCodec.Record.Check
/-!
# What names look like

A text is cut at a character that stands behind it if it does not hold that
character itself (`takeWhile_ne_append`). No opcode has a bracket in its
name, and no argument an equals sign; neither begins with a hyphen, and an
argument name has no blank at its ends, whatever stands inside it.
-/

namespace OperandCodec

open Token Text

/-! ## Up to a character -/

section Cut

variable {α : Type} [BEq α] [LawfulBEq α] {a : α} {l : List α}

/-- Nothing of a list differs from the items it does not have. -/
theorem bne_of_notMem (h : a ∉ l) : ∀ x ∈ l, (x != a) = true := fun _ hx =>
  bne_iff_ne.2 (ne_of_mem_of_not_mem hx h)

theorem takeWhile_ne_append (h : a ∉ l) (m : List α) : (l ++ a :: m).takeWhile (· != a) = l := by
  rw [List.takeWhile_append_of_pos (bne_of_notMem h), List.takeWhile_cons_of_neg (by simp),
    List.append_nil]

theorem dropWhile_ne_append (h : a ∉ l) (m : List α) :
    (l ++ a :: m).dropWhile (· != a) = a :: m := by
  rw [List.dropWhile_append_of_pos (bne_of_notMem h), List.dropWhile_cons_of_neg (by simp)]

end Cut

variable {s : String}

theorem isBlank_eq_false_of_isNameRest {c : Char} (h : isNameRest c) : isBlank c = false := by
  rw [isNameRest, Bool.or_assoc, Bool.or_comm (c == '-'), ← Bool.or_assoc, Bool.or_eq_true] at h
  rcases h with hrest | hhyphen
  · exact isBlank_eq_false_of_isIdentRest hrest
  · rw [beq_iff_eq.1 hhyphen]
    decide

/-! ## Opcode names -/

/-- **What an opcode name is made of**: a first character, and characters of names behind it. -/
theorem exists_parts_of_isOpcodeName (h : isOpcodeName s) :
    ∃ c cs, s.toList = c :: cs ∧ isNameStart c ∧ ∀ x ∈ cs, isNameRest x := by
  unfold isOpcodeName at h
  cases hs : s.toList with
  | nil => simp [hs] at h
  | cons c cs =>
    rw [hs] at h
    obtain ⟨hc, hcs⟩ := Bool.and_eq_true_iff.1 h
    exact ⟨c, cs, rfl, hc, List.all_eq_true.1 hcs⟩

theorem head?_ne_hyphen_of_isOpcodeName (h : isOpcodeName s) : s.toList.head? ≠ some '-' := by
  obtain ⟨c, cs, hs, hc, -⟩ := exists_parts_of_isOpcodeName h
  rw [hs]
  rintro ⟨⟩
  cases hc

theorem bracket_notMem_of_isOpcodeName (h : isOpcodeName s) : '<' ∉ s.toList := by
  obtain ⟨c, cs, hs, hc, hcs⟩ := exists_parts_of_isOpcodeName h
  rw [hs]
  intro hmem
  rcases List.mem_cons.1 hmem with rfl | hmem
  · cases hc
  · cases hcs _ hmem

/-! ## Argument names -/

/-- **What an argument name is made of**: a first character and a last one, with characters of names
and blanks between them. -/
theorem exists_parts_of_isArgumentName (h : isArgumentName s) :
    ∃ c inner d, s.toList = c :: (inner ++ [d]) ∧ isIdentRest c ∧
      (∀ x ∈ inner, isNameRest x ∨ isBlank x) ∧ isNameRest d := by
  unfold isArgumentName at h
  cases hs : s.toList with
  | nil => simp [hs] at h
  | cons c cs =>
    cases cs using List.reverseRecOn with
    | nil => simp [hs] at h
    | append_singleton inner d =>
      simp only [hs, List.dropLast_concat, List.getLast?_concat, Option.any_some,
        Bool.and_eq_true, List.all_eq_true, Bool.or_eq_true] at h
      obtain ⟨⟨hc, hinner⟩, hd⟩ := h
      exact ⟨c, inner, d, rfl, by simpa [isIdentRest] using hc, hinner, hd⟩

theorem head?_ne_hyphen_of_isArgumentName (h : isArgumentName s) : s.toList.head? ≠ some '-' := by
  obtain ⟨c, inner, d, hs, hc, -, -⟩ := exists_parts_of_isArgumentName h
  rw [hs]
  rintro ⟨⟩
  cases hc

theorem equals_notMem_of_isArgumentName (h : isArgumentName s) : '=' ∉ s.toList := by
  obtain ⟨c, inner, d, hs, hc, hinner, hd⟩ := exists_parts_of_isArgumentName h
  rw [hs]
  intro hmem
  rcases List.mem_cons.1 hmem with rfl | hmem
  · cases hc
  rcases List.mem_append.1 hmem with hmem | hmem
  · rcases hinner _ hmem with hrest | hblank
    · cases hrest
    · cases hblank
  · rw [← List.mem_singleton.1 hmem] at hd
    cases hd

theorem Text.trim_eq_self {s : List Char} (hfront : StopsAt isBlank s)
    (hback : StopsAt isBlank s.reverse) : trim s = s := by
  rw [trim, dropWhile_of_stopsAt hfront, dropWhile_of_stopsAt hback, List.reverse_reverse]

/-- There are no blanks to trim at the ends of an argument name. -/
theorem trim_of_isArgumentName (h : isArgumentName s) : trim s.toList = s.toList := by
  obtain ⟨c, inner, d, hs, hc, -, hd⟩ := exists_parts_of_isArgumentName h
  rw [hs]
  refine trim_eq_self (stopsAt_cons (isBlank_eq_false_of_isIdentRest hc)) ?_
  rw [List.reverse_cons, List.reverse_append, List.reverse_singleton]
  exact stopsAt_cons (isBlank_eq_false_of_isNameRest hd)

end OperandCodec
