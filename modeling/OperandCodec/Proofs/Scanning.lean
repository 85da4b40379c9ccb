import Mathlib
import OperandCodec.Expr.Token
/-!
# Texts and their tokens

A text is put together from words, symbols and blanks, and it has the tokens
of its parts in order (`Scans`). A part is read for itself wherever the
rest does not go on with it: a run of digits up to a character that is no
digit, an identifier up to one that is neither letter, digit nor underscore.
Where in a source a text stands makes no difference, as long as it can be
read.
-/

namespace OperandCodec

open Token Text

/-- A text has the tokens, wherever it stands in a source. -/
def Scans (text : List Char) (ts : List Token) : Prop :=
  ∀ column, (Scanner.mk column text).tokens = .ok ts

/-- A text does not start with a character of a class. -/
def StopsAt (p : Char → Bool) (text : List Char) : Prop :=
  ∀ c ∈ text.head?, p c = false

theorem stopsAt_cons {p : Char → Bool} {c : Char} {text : List Char} (hc : p c = false) :
    StopsAt p (c :: text) := by
  rintro _ ⟨⟩
  exact hc

/-- Nothing is dropped of a text at which a class stops. -/
theorem dropWhile_of_stopsAt {p : Char → Bool} {text : List Char} (h : StopsAt p text) :
    text.dropWhile p = text := by
  cases text with
  | nil => rfl
  | cons c text => exact List.dropWhile_cons_of_neg (by simp [h c rfl])

/-! ## Steps of a scanner -/

namespace Scanner

variable {s s' : Scanner} {t : Token}

/-- What is read depends on the next token and on the scanner behind it. -/
theorem tokens_eq (s : Scanner) : s.tokens =
    match s.next.1 with
    | .error e => .error e
    | .ok t => if t = .eof then .ok [.eof] else s.next.2.tokens.map (t :: ·) := by
  rw [tokens]
  split
  · rename_i e h
    rw [h]
  · rename_i t h
    simp only [h, dite_eq_ite]

/-- What is read is the end, or a token and what is read behind it. -/
theorem tokens_cases {ts : List Token} (h : s.tokens = .ok ts) :
    s.next.1 = .ok .eof ∧ ts = [.eof] ∨
      ∃ t ts', s.next.1 = .ok t ∧ s.next.2.tokens = .ok ts' ∧ ts = t :: ts' := by
  rw [tokens_eq] at h
  split at h
  · cases h
  · rename_i t hnext
    split at h
    · rename_i ht
      exact .inl ⟨ht ▸ hnext, (Except.ok.inj h).symm⟩
    · rcases hrest : s.next.2.tokens with e | ts'
      · rw [hrest] at h
        cases h
      · rw [hrest] at h
        exact .inr ⟨t, ts', hnext, rfl, (Except.ok.inj h).symm⟩

/-- **The tokens of a source end with the end**, and it is nowhere else among them. -/
theorem tokens_eq_append_eof {ts : List Token} (h : s.tokens = .ok ts) :
    ∃ ts', ts = ts' ++ [.eof] ∧ .eof ∉ ts' := by
  induction s using tokens.induct generalizing ts with
  | case1 s e hnext =>
    rw [tokens_eq, hnext] at h
    cases h
  | case2 s hnext =>
    rw [tokens_eq, hnext] at h
    cases h
    exact ⟨[], rfl, List.not_mem_nil⟩
  | case3 s t hnext ht hlt ih =>
    obtain ⟨heof, -⟩ | ⟨t', rest, hnext', hrest, rfl⟩ := tokens_cases h
    · exact absurd (Except.ok.inj (hnext.symm.trans heof)) ht
    · obtain rfl := Except.ok.inj (hnext.symm.trans hnext')
      obtain ⟨ts', rfl, hts'⟩ := ih hrest
      exact ⟨t :: ts', rfl, List.not_mem_cons_of_ne_of_not_mem (Ne.symm ht) hts'⟩

theorem tokens_of_next (h : s.next = (.ok t, s')) (ht : t ≠ .eof) :
    s.tokens = s'.tokens.map (t :: ·) := by
  rw [tokens_eq, h]
  exact if_neg ht

theorem next_blank {c : Char} (hc : isBlank c) (column : Nat) (text : List Char) :
    (Scanner.mk column (c :: text)).next = (Scanner.mk (column + 1) text).next := by
  have hskip : (Scanner.mk column (c :: text)).skip isBlank =
      (Scanner.mk (column + 1) text).skip isBlank := by
    simp only [skip, run, List.takeWhile_cons, hc, List.dropWhile_cons, if_true, List.length_cons]
    congr 1
    omega
  rw [next, next, hskip]

/-- At a character that is no blank the next token starts. -/
theorem next_eq_lexeme {c : Char} (hc : isBlank c = false) (column : Nat) (text : List Char) :
    (Scanner.mk column (c :: text)).next = (Scanner.mk column (c :: text)).lexeme := by
  simp [next, skip, run, hc]

/-- A run of characters of a class ends where the text behind it stops. -/
theorem run_append {p : Char → Bool} {word text : List Char} (hword : ∀ c ∈ word, p c)
    (htext : StopsAt p text) (column : Nat) : (Scanner.mk column (word ++ text)).run p = word := by
  rw [run, List.takeWhile_append_of_pos hword]
  cases text with
  | nil => simp
  | cons c text => simp [htext c rfl]

theorem skip_append {p : Char → Bool} {word text : List Char} (hword : ∀ c ∈ word, p c)
    (htext : StopsAt p text) (column : Nat) :
    (Scanner.mk column (word ++ text)).skip p = ⟨column + word.length, text⟩ := by
  rw [skip, run_append hword htext, List.dropWhile_append_of_pos hword]
  cases text with
  | nil => simp
  | cons c text => simp [htext c rfl]

end Scanner

/-! ## Classes of characters -/

/-- The code points of letters, digits and the underscore. -/
theorem toNat_of_isIdentRest {c : Char} (h : isIdentRest c) :
    48 ≤ c.toNat ∧ c.toNat ≤ 57 ∨ 65 ≤ c.toNat ∧ c.toNat ≤ 90 ∨
      97 ≤ c.toNat ∧ c.toNat ≤ 122 ∨ c.toNat = 95 := by
  simp only [isIdentRest, Char.isAlphanum, Char.isAlpha, Char.isUpper, Char.isLower, Char.isDigit,
    Bool.or_eq_true, Bool.and_eq_true, decide_eq_true_eq, beq_iff_eq, ge_iff_le,
    UInt32.le_iff_toNat_le] at h
  rcases h with ((h | h) | h) | rfl
  · exact .inr (.inl h)
  · exact .inr (.inr (.inl h))
  · exact .inl h
  · exact .inr (.inr (.inr rfl))

theorem isBlank_eq_false_of_isIdentRest {c : Char} (h : isIdentRest c) : isBlank c = false := by
  have hcode := toNat_of_isIdentRest h
  simp [isBlank, blankRanges]
  omega

theorem isIdentRest_eq_false_of_isBlank {c : Char} (h : isBlank c) : isIdentRest c = false := by
  by_contra hrest
  rw [isBlank_eq_false_of_isIdentRest (Bool.of_not_eq_false hrest)] at h
  cases h

theorem isIdentRest_of_isDigit {c : Char} (h : c.isDigit) : isIdentRest c := by
  simp [isIdentRest, Char.isAlphanum, h]

theorem isDigit_eq_false_of_not_isIdentRest {c : Char} (h : isIdentRest c = false) :
    c.isDigit = false := by
  by_contra hdigit
  rw [isIdentRest_of_isDigit (Bool.of_not_eq_false hdigit)] at h
  cases h

/-- Where no word goes on, no number does. -/
theorem StopsAt.isDigit {text : List Char} (h : StopsAt isIdentRest text) :
    StopsAt Char.isDigit text :=
  fun c hc => isDigit_eq_false_of_not_isIdentRest (h c hc)

theorem isIdentRest_of_isIdentStart {c : Char} (h : isIdentStart c) : isIdentRest c := by
  simp only [isIdentStart, isIdentRest, Char.isAlphanum, Bool.or_eq_true] at h ⊢
  exact h.elim (fun h => .inl (.inl h)) .inr

theorem isDigit_eq_false_of_isIdentStart {c : Char} (h : isIdentStart c) : c.isDigit = false := by
  simp only [isIdentStart, Char.isAlpha, Char.isUpper, Char.isLower, Bool.or_eq_true,
    Bool.and_eq_true, decide_eq_true_eq, beq_iff_eq, ge_iff_le, UInt32.le_iff_toNat_le] at h
  simp only [Char.isDigit, Bool.and_eq_false_iff, decide_eq_false_iff_not, ge_iff_le,
    UInt32.le_iff_toNat_le]
  rcases h with (h | h) | rfl
  · exact .inr fun h' => absurd (Nat.le_trans h.1 h') (by decide)
  · exact .inr fun h' => absurd (Nat.le_trans h.1 h') (by decide)
  · exact .inr (by decide)

/-- A symbol is no blank and has no place in a word, and it is not the end. -/
theorem kind_of_ofChar? {c : Char} {t : Token} (hc : ofChar? c = some t) : isBlank c = false ∧
    c.isDigit = false ∧ isIdentStart c = false ∧ isIdentRest c = false ∧ t ≠ .eof := by
  unfold ofChar? at hc
  split at hc <;> cases hc <;> decide

/-! ## The token at the front -/

namespace Scanner

variable {c : Char} {t : Token}

/-- A symbol is a token by itself. -/
theorem next_of_ofChar? (hc : ofChar? c = some t) (column : Nat) (text : List Char) :
    (Scanner.mk column (c :: text)).next = (.ok t, ⟨column + 1, text⟩) := by
  obtain ⟨hblank, hdigit, hident, -⟩ := kind_of_ofChar? hc
  rw [next_eq_lexeme hblank]
  simp [lexeme, hdigit, hident, hc]

/-- A digit starts an integer, of all digits that follow at once. -/
theorem next_of_isDigit (hc : c.isDigit) (column : Nat) (text : List Char) :
    (Scanner.mk column (c :: text)).next =
      let digits := (Scanner.mk column (c :: text)).run Char.isDigit
      (match Value.ofInt? (ofDigits 10 digits) with
        | some n => .ok (.int n)
        | none => .error (.literalTooLarge (String.ofList digits) (column + 1)),
      (Scanner.mk column (c :: text)).skip Char.isDigit) := by
  rw [next_eq_lexeme (isBlank_eq_false_of_isIdentRest (isIdentRest_of_isDigit hc)), lexeme]
  exact if_pos hc

/-- A letter or an underscore starts an identifier, of all that goes on with it. -/
theorem next_of_isIdentStart (hc : isIdentStart c) (column : Nat) (text : List Char) :
    (Scanner.mk column (c :: text)).next =
      (.ok (.ident (String.ofList ((Scanner.mk column (c :: text)).run isIdentRest))),
        (Scanner.mk column (c :: text)).skip isIdentRest) := by
  have hdigit := isDigit_eq_false_of_isIdentStart hc
  rw [next_eq_lexeme (isBlank_eq_false_of_isIdentRest (isIdentRest_of_isIdentStart hc)), lexeme]
  dsimp only
  rw [hdigit, if_neg Bool.false_ne_true, if_pos hc]

section Words

variable {word text : List Char}

/-- A run of digits is read up to a character that is none. -/
theorem next_digits {n : Value} (hword : ∀ c ∈ word, c.isDigit) (hne : word ≠ [])
    (hn : Value.ofInt? (ofDigits 10 word) = some n) (htext : StopsAt Char.isDigit text)
    (column : Nat) : (Scanner.mk column (word ++ text)).next =
      (.ok (.int n), ⟨column + word.length, text⟩) := by
  have hrun := run_append hword htext column
  have hskip := skip_append hword htext column
  obtain ⟨c, word, rfl⟩ := List.exists_cons_of_ne_nil hne
  rw [List.cons_append] at hrun hskip ⊢
  rw [next_of_isDigit (hword c List.mem_cons_self)]
  dsimp only
  rw [hrun, hskip, hn]

/-- An identifier is read up to a character that does not go on with it. -/
theorem next_identifier (hstart : ∀ c ∈ word.head?, isIdentStart c)
    (hword : ∀ c ∈ word, isIdentRest c) (hne : word ≠ []) (htext : StopsAt isIdentRest text)
    (column : Nat) : (Scanner.mk column (word ++ text)).next =
      (.ok (.ident (String.ofList word)), ⟨column + word.length, text⟩) := by
  have hrun := run_append hword htext column
  have hskip := skip_append hword htext column
  obtain ⟨c, word, rfl⟩ := List.exists_cons_of_ne_nil hne
  rw [List.cons_append] at hrun hskip ⊢
  rw [next_of_isIdentStart (hstart c rfl), hrun, hskip]

end Words

end Scanner

/-! ## Putting texts together -/

namespace Scans

open Scanner

variable {text : List Char} {ts : List Token} {t : Token} {c : Char}

theorem nil : Scans [] [.eof] := by
  intro column
  rw [tokens_eq]
  rfl

/-- A token in front of a text. -/
theorem of_next {word : List Char} (ht : t ≠ .eof) (h : Scans text ts)
    (hnext : ∀ column, (Scanner.mk column (word ++ text)).next =
      (.ok t, ⟨column + word.length, text⟩)) : Scans (word ++ text) (t :: ts) := by
  intro column
  rw [tokens_of_next (hnext column) ht, h]
  rfl

theorem blank (hc : isBlank c) (h : Scans text ts) : Scans (c :: text) ts := by
  intro column
  rw [tokens_eq, next_blank hc, ← tokens_eq]
  exact h (column + 1)

/-- A symbol is read for itself. -/
theorem symbol (hc : ofChar? c = some t) (h : Scans text ts) : Scans (c :: text) (t :: ts) := by
  obtain ⟨-, -, -, -, ht⟩ := kind_of_ofChar? hc
  show Scans ([c] ++ text) (t :: ts)
  exact of_next ht h fun column => next_of_ofChar? hc column text

/-- A run of digits in front of a text that does not go on with it. -/
theorem digits {word : List Char} {n : Value} (hword : ∀ c ∈ word, c.isDigit) (hne : word ≠ [])
    (hn : Value.ofInt? (ofDigits 10 word) = some n) (htext : StopsAt Char.isDigit text)
    (h : Scans text ts) : Scans (word ++ text) (.int n :: ts) :=
  of_next Token.noConfusion h (next_digits hword hne hn htext)

/-- An identifier in front of a text that does not go on with it. -/
theorem identifier {word : List Char} (hstart : ∀ c ∈ word.head?, isIdentStart c)
    (hword : ∀ c ∈ word, isIdentRest c) (hne : word ≠ []) (htext : StopsAt isIdentRest text)
    (h : Scans text ts) : Scans (word ++ text) (.ident (String.ofList word) :: ts) :=
  of_next Token.noConfusion h (next_identifier hstart hword hne htext)

end Scans

/-! ## Values -/

theorem ofDigits_eq_ofDigitChars {word : List Char} (h : ∀ c ∈ word, c.isDigit) :
    ofDigits 10 word = Nat.ofDigitChars 10 word 0 := by
  rw [ofDigits, Nat.ofDigitChars_eq_foldl]
  refine List.foldl_ext _ _ _ fun n c hc => ?_
  rw [digitValue, if_pos (h c hc)]

theorem neg_iff_toInt_neg {n : Value} : n < 0 ↔ n.toInt < 0 :=
  Int64.lt_iff_toInt_lt

/-- The text of a value: the digits of its magnitude, with a sign in front of those below zero. -/
theorem toList_text (n : Value) : n.text.toList =
    (if n < 0 then ['-'] else []) ++ Nat.toDigits 10 n.toInt.natAbs := by
  rw [Value.text, Int.toString_eq_repr, Int.repr_eq_if]
  by_cases hn : n < 0
  · have hneg : n.toInt < 0 := neg_iff_toInt_neg.1 hn
    have habs : (-n.toInt).toNat = n.toInt.natAbs := by omega
    rw [if_neg (Int.not_le.2 hneg), if_pos hn, String.toList_append, Nat.toList_repr, habs]
    rfl
  · have hnonneg : 0 ≤ n.toInt := Int.not_lt.1 (mt neg_iff_toInt_neg.2 hn)
    have habs : n.toInt.toNat = n.toInt.natAbs := by omega
    rw [if_pos hnonneg, if_neg hn, Nat.toList_repr, habs]
    rfl

/-- The text of a value that is not negative is a run of digits that denotes it. -/
theorem digits_text {n : Value} (hn : 0 ≤ n.toInt) :
    (∀ c ∈ n.text.toList, c.isDigit) ∧ n.text.toList ≠ [] ∧
      Value.ofInt? (ofDigits 10 n.text.toList) = some n := by
  have htext : n.text.toList = Nat.toDigits 10 n.toInt.natAbs := by
    rw [toList_text, if_neg (mt neg_iff_toInt_neg.1 (Int.not_lt.2 hn)), List.nil_append]
  have hdigits : ∀ c ∈ Nat.toDigits 10 n.toInt.natAbs, c.isDigit := fun c hc =>
    Nat.isDigit_of_mem_toDigits (by decide) (by decide) hc
  rw [htext]
  refine ⟨hdigits, Nat.toDigits_ne_nil, ?_⟩
  rw [ofDigits_eq_ofDigitChars hdigits, Nat.ofDigitChars_toDigits (by decide) (by decide)]
  rw [Int.natAbs_of_nonneg hn, Value.ofInt?_toInt]

/-- No symbol stands for an integer. -/
theorem ofChar?_ne_int {c : Char} {n : Value} : ofChar? c ≠ some (.int n) := by
  unfold ofChar?
  split <;> nofun

/-- An integer that is read is not negative: a sign is a token of its own. -/
theorem nonneg_of_lexeme {s : Scanner} {n : Value} (h : s.lexeme.1 = .ok (.int n)) :
    0 ≤ n.toInt := by
  unfold Scanner.lexeme at h
  split at h
  · cases h
  · split at h
    · dsimp only at h
      split at h
      · rename_i m hm
        cases h
        rw [Value.ofInt?_eq_some_iff.1 hm]
        exact Int.natCast_nonneg _
      · cases h
    · split at h
      · cases h
      · dsimp only at h
        split at h
        · rename_i t ht
          cases h
          exact absurd ht ofChar?_ne_int
        · cases h

/-- **The integers among the tokens of a source are not negative.** -/
theorem nonneg_of_tokens {s : Scanner} {ts : List Token} (h : s.tokens = .ok ts) {n : Value}
    (hn : .int n ∈ ts) : 0 ≤ n.toInt := by
  induction s using Scanner.tokens.induct generalizing ts with
  | case1 s e hnext =>
    rw [Scanner.tokens_eq, hnext] at h
    cases h
  | case2 s hnext =>
    rw [Scanner.tokens_eq, hnext] at h
    cases h
    cases List.mem_singleton.1 hn
  | case3 s t hnext ht hlt ih =>
    rw [Scanner.tokens_eq, hnext] at h
    dsimp only at h
    rw [if_neg ht] at h
    cases hrest : s.next.2.tokens with
    | error e =>
      rw [hrest] at h
      cases h
    | ok rest =>
      rw [hrest] at h
      cases h
      rcases List.mem_cons.1 hn with rfl | hn
      · exact nonneg_of_lexeme hnext
      · exact ih hrest hn

end OperandCodec
