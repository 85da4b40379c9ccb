import OperandCodec.Expr.Alphabet
import OperandCodec.Proofs.Spacing
/-!
# Reading any text

What a scanner makes of a text that may be no source at all. A call takes
the blanks in front and then a word, which is a token or cannot be read
(`takes_next`); everything else is read off from that. Between two calls no
identifier and no number goes on (`Boundary`), which is why the scanner's
numbers are those of the text: a run of digits at a boundary has neither
letter nor underscore before it, and any other run lies inside a word that
is read. So the calls before the first error pass over nothing that cannot
be read, and the first error is the leftmost (`outcome_of_tokens`).
-/

namespace OperandCodec

open Token Text

/-! ## Characters -/

theorem contains_symbols_iff {c : Char} :
    ['(', ')', '+', '-', '*', '/', '%'].contains c ↔ ∃ t, ofChar? c = some t := by
  constructor
  · intro h
    simp only [List.contains_iff_mem, List.mem_cons, List.not_mem_nil, or_false] at h
    rcases h with rfl | rfl | rfl | rfl | rfl | rfl | rfl <;> exact ⟨_, rfl⟩
  · rintro ⟨t, h⟩
    unfold ofChar? at h
    split at h <;> first | rfl | cases h

/-- A character of a source is a blank, has a place in an identifier, or is a symbol. -/
theorem isSourceChar_iff {c : Char} :
    isSourceChar c ↔ isBlank c ∨ isIdentRest c ∨ ∃ t, ofChar? c = some t := by
  rw [← contains_symbols_iff]
  simp only [isSourceChar, isIdentRest, Bool.or_eq_true, or_assoc]

theorem isSourceChar_of_isIdentRest {c : Char} (h : isIdentRest c) : isSourceChar c :=
  isSourceChar_iff.2 (.inr (.inl h))

/-! ## Runs -/

/-- A class stops where a run of it ends. -/
theorem stopsAt_dropWhile (p : Char → Bool) (text : List Char) : StopsAt p (text.dropWhile p) := by
  intro c hc
  have h := List.head?_dropWhile_not p text
  rw [hc] at h
  simpa using h

/-- Two runs of a class that end where the class stops are one. -/
theorem run_unique {p : Char → Bool} {run run' text text' : List Char} (hrun : ∀ c ∈ run, p c)
    (hrun' : ∀ c ∈ run', p c) (htext : StopsAt p text) (htext' : StopsAt p text')
    (h : run ++ text = run' ++ text') : run = run' :=
  (Scanner.run_append hrun htext 0).symm.trans (h ▸ Scanner.run_append hrun' htext' 0)

/-! ## One call -/

/-- What a call takes from a text without a blank in front, what it leaves, and its outcome. -/
inductive Takes (column : Nat) : List Char → List Char → Except LexError Token → Prop where
  | eof : Takes column [] [] (.ok .eof)
  | token {word after : List Char} {t : Token} : Spells word t → StopsAt t.goesOn after →
      Takes column word after (.ok t)
  | character {c : Char} {after : List Char} : isSourceChar c = false →
      Takes column [c] after (.error (.unexpectedCharacter c (column + 1)))
  | number {digits after : List Char} : digits ≠ [] → (∀ c ∈ digits, c.isDigit) →
      StopsAt Char.isDigit after → 2 ^ 63 - 1 < ofDigits 10 digits →
      Takes column digits after (.error (.literalTooLarge (String.ofList digits) (column + 1)))

namespace Scanner

theorem rest_eq_run_append (p : Char → Bool) (s : Scanner) : s.rest = s.run p ++ (s.skip p).rest :=
  List.takeWhile_append_dropWhile.symm

theorem mem_run {p : Char → Bool} {s : Scanner} {c : Char} (h : c ∈ s.run p) : p c :=
  List.mem_takeWhile_imp h

theorem takes_digits {column : Nat} {digits after : List Char} (hne : digits ≠ [])
    (hdigits : ∀ c ∈ digits, c.isDigit) (hstops : StopsAt Char.isDigit after) :
    Takes column digits after (match Value.ofInt? (ofDigits 10 digits) with
      | some n => .ok (.int n)
      | none => .error (.literalTooLarge (String.ofList digits) (column + 1))) := by
  cases hvalue : Value.ofInt? (ofDigits 10 digits) with
  | some n => exact .token (.of_digits hdigits hne hvalue) hstops
  | none =>
    refine .number hne hdigits hstops ?_
    have hmin : Int64.minValue.toInt = -0x8000000000000000 := rfl
    have hmax : Int64.maxValue.toInt = 0x7FFFFFFFFFFFFFFF := rfl
    rcases Value.ofInt?_eq_none_iff.1 hvalue with hlow | hhigh <;> omega

/-- **What is read where no blank stands in front** is a token, or what the error is about. -/
theorem takes_lexeme {s : Scanner} (hs : StopsAt isBlank s.rest) :
    ∃ word, s.rest = word ++ s.lexeme.2.rest ∧ s.lexeme.2.column = s.column + word.length ∧
      Takes s.column word s.lexeme.2.rest s.lexeme.1 := by
  obtain ⟨column, text⟩ := s
  cases text with
  | nil => exact ⟨[], rfl, rfl, .eof⟩
  | cons c cs =>
    have hrun : ∀ p, p c → run p ⟨column, c :: cs⟩ = c :: cs.takeWhile p := fun p hc =>
      List.takeWhile_cons_of_pos hc
    rw [lexeme]
    dsimp only
    by_cases hdigit : c.isDigit
    · rw [if_pos hdigit]
      refine ⟨_, rest_eq_run_append Char.isDigit ⟨column, c :: cs⟩, rfl, takes_digits ?_ ?_ ?_⟩
      · rw [hrun _ hdigit]
        exact List.cons_ne_nil _ _
      · exact fun x => mem_run
      · exact stopsAt_dropWhile _ _
    rw [if_neg hdigit]
    by_cases hident : isIdentStart c
    · rw [if_pos hident]
      refine ⟨_, rest_eq_run_append isIdentRest ⟨column, c :: cs⟩, rfl, ?_⟩
      have hword := hrun isIdentRest (isIdentRest_of_isIdentStart hident)
      rw [hword]
      exact .token (.identifier hident fun x hx => mem_run (hword ▸ hx)) (stopsAt_dropWhile _ _)
    · rw [if_neg hident]
      refine ⟨[c], rfl, rfl, ?_⟩
      cases hsymbol : ofChar? c with
      | some t =>
        refine .token (.symbol hsymbol) fun x _ => ?_
        rw [(goesOn_of_ofChar? hsymbol).1]
      | none =>
        refine .character ?_
        have hblank : isBlank c = false := hs c rfl
        have hrest : isIdentRest c = false := by
          simp only [isIdentStart, Bool.or_eq_true, not_or] at hident
          simp [isIdentRest, Char.isAlphanum, hdigit, hident]
        rw [← Bool.not_eq_true, isSourceChar_iff, hblank, hrest, hsymbol]
        simp

/-- **A call takes the blanks in front and a word.** -/
theorem takes_next (s : Scanner) : ∃ blanks word, (∀ c ∈ blanks, isBlank c) ∧
    s.rest = blanks ++ word ++ s.next.2.rest ∧
    s.next.2.column = s.column + blanks.length + word.length ∧
    Takes (s.column + blanks.length) word s.next.2.rest s.next.1 := by
  obtain ⟨word, hword, hcolumn, htakes⟩ :=
    takes_lexeme (s := s.skip isBlank) (stopsAt_dropWhile _ _)
  refine ⟨s.run isBlank, word, fun c => mem_run, ?_, hcolumn, htakes⟩
  rw [rest_eq_run_append isBlank s, hword, List.append_assoc]
  rfl

end Scanner

/-! ## Words that cannot be read -/

namespace Unreadable

variable {before word word' after after' : List Char} {e e' : LexError}

/-- A word that cannot be read starts with a character that no source has, or with a digit that goes
on with nothing. -/
theorem front (h : Unreadable before word after e) : ∃ c cs, word = c :: cs ∧
    (isSourceChar c = false ∨ c.isDigit ∧ ∀ x ∈ before.getLast?, isIdentRest x = false) := by
  cases h with
  | character hc => exact ⟨_, [], rfl, .inl hc⟩
  | number hnumber =>
    obtain ⟨c, cs, rfl⟩ := List.exists_cons_of_ne_nil hnumber.ne_nil
    exact ⟨c, cs, rfl, .inr ⟨hnumber.digits c List.mem_cons_self, hnumber.starts⟩⟩

/-- A number starts with a character that sources have. -/
theorem isSourceChar_of_number {c : Char} {cs : List Char} (hnumber : IsNumber before word after)
    (h : c :: cs = word ++ after) : isSourceChar c := by
  obtain ⟨x, xs, rfl⟩ := List.exists_cons_of_ne_nil hnumber.ne_nil
  rw [(List.cons.inj h).1]
  exact isSourceChar_of_isIdentRest (isIdentRest_of_isDigit (hnumber.digits x List.mem_cons_self))

/-- **There is one error at a place.** -/
theorem unique (h : Unreadable before word after e) (h' : Unreadable before word' after' e')
    (htext : word ++ after = word' ++ after') : e = e' := by
  cases h with
  | character hc =>
    cases h' with
    | character => rw [(List.cons.inj htext).1]
    | number hnumber =>
      exact absurd (isSourceChar_of_number hnumber htext) (by simp [hc])
  | number hnumber =>
    cases h' with
    | character hc =>
      exact absurd (isSourceChar_of_number hnumber htext.symm) (by simp [hc])
    | number hnumber' =>
      rw [run_unique hnumber.digits hnumber'.digits hnumber.stops hnumber'.stops htext]

/-- No such word starts with a character of sources that is no digit. -/
theorem not_starting {c : Char} {cs : List Char} (hsource : isSourceChar c)
    (hdigit : c.isDigit = false) (htext : word ++ after = c :: cs) :
    ¬ Unreadable before word after e := by
  intro h
  obtain ⟨x, xs, rfl, hx⟩ := h.front
  obtain rfl := (List.cons.inj htext).1
  rcases hx with hx | ⟨hx, -⟩
  · exact absurd hsource (by simp [hx])
  · exact absurd hx (by simp [hdigit])

/-- No number starts inside an identifier or another number. -/
theorem not_inside {l cs : List Char} {c : Char} (hne : l ≠ []) (hl : ∀ x ∈ l, isIdentRest x)
    (hc : isIdentRest c) (htext : word ++ after = c :: cs) :
    ¬ Unreadable (before ++ l) word after e := by
  intro h
  obtain ⟨x, xs, rfl, hx⟩ := h.front
  obtain rfl := (List.cons.inj htext).1
  rcases hx with hx | ⟨-, hlast⟩
  · exact absurd (isSourceChar_of_isIdentRest hc) (by simp [hx])
  · -- the character in front is one of `l`
    have hrest := hl _ (List.getLast_mem hne)
    rw [hlast (l.getLast hne) (by simp [List.getLast?_append, List.getLast?_eq_some_getLast hne])]
      at hrest
    cases hrest

end Unreadable

/-- From one place of a text up to another no word starts that cannot be read. -/
def ReadableBetween (text : List Char) (start stop : Nat) : Prop :=
  ∀ before word after e, text = before ++ word ++ after → Unreadable before word after e →
    start ≤ before.length → stop ≤ before.length

namespace ReadableBetween

variable {text before word after : List Char} {start middle stop : Nat}

theorem refl : ReadableBetween text start start := fun _ _ _ _ _ _ hstart => hstart

theorem trans (h : ReadableBetween text start middle) (h' : ReadableBetween text middle stop) :
    ReadableBetween text start stop := fun before word after e htext hword hstart =>
  h' before word after e htext hword (h before word after e htext hword hstart)

/-- A part of a text is readable where no word that cannot be read starts at one of its
characters. -/
theorem of_forall (h : ∀ l c m, word = l ++ c :: m → ∀ word' after' e,
      word' ++ after' = c :: (m ++ after) → ¬ Unreadable (before ++ l) word' after' e) :
    ReadableBetween (before ++ word ++ after) before.length (before.length + word.length) := by
  intro before' word' after' e htext hword' hstart
  by_contra hstop
  rw [List.append_assoc, List.append_assoc] at htext
  -- the place is behind `before`, and in front of the end of `word`
  obtain ⟨l, rfl⟩ : before <+: before' :=
    List.prefix_of_prefix_length_le ⟨_, htext⟩ ⟨_, rfl⟩ hstart
  rw [List.append_assoc, List.append_cancel_left_eq] at htext
  rw [List.length_append] at hstop
  obtain ⟨m, rfl⟩ : l <+: word :=
    List.prefix_of_prefix_length_le ⟨_, htext.symm⟩ ⟨_, rfl⟩ (by omega)
  rw [List.append_assoc, List.append_cancel_left_eq] at htext
  cases m with
  | nil =>
    rw [List.append_nil] at hstop
    omega
  | cons c m => exact h l c m rfl word' after' e htext.symm hword'

/-- Blanks can be read. -/
theorem of_blanks (h : ∀ c ∈ word, isBlank c) :
    ReadableBetween (before ++ word ++ after) before.length (before.length + word.length) := by
  refine of_forall ?_
  rintro l c m rfl word' after' e htext
  have hc : isBlank c := h c (by simp)
  have hdigit : c.isDigit = false :=
    isDigit_eq_false_of_not_isIdentRest (isIdentRest_eq_false_of_isBlank hc)
  exact Unreadable.not_starting (isSourceChar_iff.2 (.inl hc)) hdigit htext

/-- **The word of a token can be read**: identifiers and numbers hold no number that starts inside
them, and the whole number is not too large. -/
theorem of_spells {t : Token} (hword : Spells word t) (hstops : StopsAt t.goesOn after) :
    ReadableBetween (before ++ word ++ after) before.length (before.length + word.length) := by
  refine of_forall ?_
  intro l c m hsplit word' after' e htext hword'
  cases hword with
  | @symbol s t hs =>
    obtain ⟨-, hdigit, -⟩ := kind_of_ofChar? hs
    have hc : c ∈ [s] := hsplit ▸ List.mem_append_right l List.mem_cons_self
    obtain rfl := List.mem_singleton.1 hc
    exact Unreadable.not_starting (isSourceChar_iff.2 (.inr (.inr ⟨t, hs⟩))) hdigit htext hword'
  | identifier hstart hall =>
    rw [hsplit] at hall
    have hc : isIdentRest c := hall c (by simp)
    by_cases hl : l = []
    · subst hl
      obtain rfl := (List.cons.inj hsplit).1
      exact Unreadable.not_starting (isSourceChar_of_isIdentRest hc)
        (isDigit_eq_false_of_isIdentStart hstart) htext hword'
    · have hrest : ∀ x ∈ l, isIdentRest x := fun x hx => hall x (List.mem_append_left _ hx)
      exact Unreadable.not_inside hl hrest hc htext hword'
  | @digits d ds n hall hvalue =>
    rw [hsplit] at hall
    have hc : c.isDigit := hall c (by simp)
    by_cases hl : l = []
    · subst hl
      obtain ⟨rfl, rfl⟩ := List.cons.inj hsplit
      cases hword' with
      | character hx =>
        rw [(List.cons.inj htext).1, isSourceChar_of_isIdentRest (isIdentRest_of_isDigit hc)] at hx
        cases hx
      | number hnumber hlarge =>
        have hsame := run_unique hnumber.digits hall hnumber.stops hstops htext
        have hn := Value.ofInt?_eq_some_iff.1 hvalue
        have hhi := n.toInt_lt
        rw [hsame, List.nil_append] at hlarge
        omega
    · have hrest : ∀ x ∈ l, isIdentRest x := fun x hx =>
        isIdentRest_of_isDigit (hall x (List.mem_append_left _ hx))
      exact Unreadable.not_inside hl hrest (isIdentRest_of_isDigit hc) htext hword'

end ReadableBetween

/-! ## Boundaries -/

/-- No identifier and no number goes on from one part of a text into the next. -/
def Boundary (before after : List Char) : Prop :=
  (∃ c ∈ before.getLast?, isIdentRest c) → StopsAt Char.isDigit after

section Boundaries

variable {before blanks word after : List Char} {c : Char}

theorem boundary_concat (hc : isIdentRest c = false) : Boundary (before ++ [c]) after := by
  rintro ⟨x, hx, hrest⟩
  rw [List.getLast?_concat] at hx
  cases hx
  rw [hc] at hrest
  cases hrest

theorem Boundary.behind_blanks (h : Boundary before (blanks ++ after))
    (hblanks : ∀ c ∈ blanks, isBlank c) : Boundary (before ++ blanks) after := by
  rcases List.eq_nil_or_concat blanks with rfl | ⟨init, c, rfl⟩
  · rwa [List.append_nil]
  · rw [List.concat_eq_append] at hblanks ⊢
    rw [← List.append_assoc]
    exact boundary_concat (isIdentRest_eq_false_of_isBlank (hblanks c (by simp)))

/-- **Behind what a call takes no identifier and no number goes on.** -/
theorem Takes.boundary {column : Nat} {outcome : Except LexError Token}
    (h : Takes column word after outcome) (before : List Char) :
    Boundary (before ++ word) after := by
  cases h with
  | eof => exact fun _ _ => nofun
  | token hword hstops =>
    cases hword with
    | symbol hc => exact boundary_concat (kind_of_ofChar? hc).2.2.2.1
    | identifier => exact fun _ => hstops.isDigit
    | digits => exact fun _ => hstops
  | character hc =>
    refine boundary_concat ?_
    by_contra hrest
    rw [isSourceChar_of_isIdentRest (Bool.of_not_eq_false hrest)] at hc
    cases hc
  | number _ _ hstops => exact fun _ => hstops

/-- **An error is about a word that cannot be read.** -/
theorem Takes.unreadable {e : LexError} (h : Takes before.length word after (.error e))
    (hbefore : Boundary before (word ++ after)) : Unreadable before word after e := by
  cases h with
  | character hc => exact .character hc
  | number hne hdigits hstops hlarge =>
    refine .number ⟨hne, hdigits, fun c hc => ?_, hstops⟩ hlarge
    obtain ⟨d, ds, rfl⟩ := List.exists_cons_of_ne_nil hne
    by_contra hrest
    have hstop := hbefore ⟨c, hc, Bool.of_not_eq_false hrest⟩ d rfl
    rw [hdigits d List.mem_cons_self] at hstop
    cases hstop

end Boundaries

/-! ## A scanner in a text -/

/-- A scanner stands behind the first part of a text, where no identifier and no number goes on. -/
structure Scanner.StandsIn (text before : List Char) (s : Scanner) : Prop where
  text : text = before ++ s.rest
  column : s.column = before.length
  boundary : Boundary before s.rest

namespace Scanner

variable {text before : List Char} {s : Scanner}

theorem standsIn_ofString (source : String) : (ofString source).StandsIn source.toList [] := by
  refine ⟨rfl, rfl, ?_⟩
  rintro ⟨c, hc, -⟩
  cases hc

/-- A call from where a scanner stands: the blanks and the word that it takes, and where the scanner
stands behind them. -/
structure Steps (text before : List Char) (s : Scanner) (blanks word : List Char) : Prop where
  isBlank : ∀ c ∈ blanks, isBlank c
  rest : s.rest = blanks ++ word ++ s.next.2.rest
  takes : Takes (before ++ blanks).length word s.next.2.rest s.next.1
  boundary : Boundary (before ++ blanks) (word ++ s.next.2.rest)
  behind : s.next.2.StandsIn text (before ++ blanks ++ word)

/-- **Every call is such a step.** -/
theorem StandsIn.steps (h : s.StandsIn text before) :
    ∃ blanks word, Steps text before s blanks word := by
  obtain ⟨blanks, word, hblanks, hrest, hcolumn, htakes⟩ := s.takes_next
  have hboundary := h.boundary
  rw [hrest, List.append_assoc] at hboundary
  rw [h.column, ← List.length_append] at hcolumn htakes
  refine ⟨blanks, word, hblanks, hrest, htakes, hboundary.behind_blanks hblanks, ?_, ?_, ?_⟩
  · rw [h.text, hrest, List.append_assoc, List.append_assoc, List.append_assoc]
  · rw [hcolumn]
    exact List.length_append.symm
  · exact htakes.boundary _

namespace Steps

variable {blanks word : List Char}

theorem text_eq (h : Steps text before s blanks word) :
    text = before ++ blanks ++ (word ++ s.next.2.rest) := by
  rw [h.behind.text, List.append_assoc]

/-- The blanks that a call takes can be read. -/
theorem readable_blanks (h : Steps text before s blanks word) :
    ReadableBetween text before.length (before ++ blanks).length := by
  rw [h.text_eq, List.length_append]
  exact .of_blanks h.isBlank

/-- What a call takes that gives a token or the end can be read. -/
theorem readable (h : Steps text before s blanks word) {t : Token} (ht : s.next.1 = .ok t) :
    ReadableBetween text before.length (before ++ blanks ++ word).length := by
  refine h.readable_blanks.trans ?_
  have htakes := h.takes
  rw [ht] at htakes
  have htext := h.behind.text
  generalize s.next.2.rest = after at htakes htext
  cases htakes with
  | eof =>
    rw [List.append_nil]
    exact .refl
  | token hword hstops =>
    have hread : ReadableBetween (before ++ blanks ++ word ++ after) _ _ := .of_spells hword hstops
    rwa [← htext, ← List.length_append] at hread

theorem unreadable (h : Steps text before s blanks word) {e : LexError} (he : s.next.1 = .error e) :
    Unreadable (before ++ blanks) word s.next.2.rest e := by
  have htakes := h.takes
  rw [he] at htakes
  exact htakes.unreadable h.boundary

end Steps

/-- A scanner that finds the end is at the end, and stays there. -/
theorem next_of_eof (h : s.next.1 = .ok .eof) : s.next.2.rest = [] := by
  obtain ⟨blanks, word, -, -, -, htakes⟩ := s.takes_next
  rw [h] at htakes
  generalize s.next.2.rest = after at htakes
  cases htakes with
  | eof => rfl
  | token hword => exact absurd rfl hword.ne_eof

/-- **Reading to the end meets the leftmost word that cannot be read, or there is none.** The
induction is on the calls; what is behind the scanner can be read. -/
theorem outcome_of_tokens (h : s.StandsIn text before)
    (hread : ReadableBetween text 0 before.length) :
    (∀ ts, s.tokens = .ok ts → ReadableBetween text 0 text.length) ∧
      ∀ e, s.tokens = .error e → FirstUnreadable text e := by
  induction s using tokens.induct generalizing before with
  | case1 s e hnext =>
    obtain ⟨blanks, word, hstep⟩ := h.steps
    rw [tokens_eq, hnext]
    refine ⟨fun ts hts => ?_, fun e' he => ?_⟩
    · cases hts
    · cases he
      refine ⟨before ++ blanks, word, s.next.2.rest, hstep.behind.text, hstep.unreadable hnext, ?_⟩
      exact fun before' word' after' e' htext hword =>
        hread.trans hstep.readable_blanks before' word' after' e' htext hword (Nat.zero_le _)
  | case2 s hnext =>
    obtain ⟨blanks, word, hstep⟩ := h.steps
    rw [tokens_eq, hnext]
    refine ⟨fun ts _ => ?_, fun e he => ?_⟩
    · have hend := hread.trans (hstep.readable hnext)
      have htext := hstep.behind.text
      rw [next_of_eof hnext, List.append_nil] at htext
      rwa [← htext] at hend
    · cases he
  | case3 s t hnext ht hlt ih =>
    obtain ⟨blanks, word, hstep⟩ := h.steps
    obtain ⟨hok, herror⟩ := ih hstep.behind (hread.trans (hstep.readable hnext))
    rw [tokens_eq, hnext]
    dsimp only
    rw [if_neg ht]
    cases hrest : s.next.2.tokens with
    | ok ts =>
      refine ⟨fun _ _ => hok ts hrest, fun e he => ?_⟩
      cases he
    | error e =>
      refine ⟨fun ts hts => ?_, fun e' he => ?_⟩
      · cases hts
      · cases he
        exact herror e hrest

/-- A scanner stands in its source after any number of calls. -/
theorem exists_standsIn_behind (h : s.StandsIn text before) (n : Nat) :
    ∃ before', (s.behind n).StandsIn text before' := by
  induction n generalizing s before with
  | zero => exact ⟨before, h⟩
  | succ n ih =>
    obtain ⟨blanks, word, hstep⟩ := h.steps
    exact ih hstep.behind

/-! ## The end -/

/-- At the end of a text every call finds the end. -/
theorem calls_of_rest_nil (h : s.rest = []) (n : Nat) :
    s.calls n = List.replicate n (.ok .eof) := by
  obtain ⟨column, rest⟩ := s
  obtain rfl : rest = [] := h
  induction n with
  | zero => rfl
  | succ n ih => exact congrArg _ ih

/-- **The end is found** after as many calls as there are characters, at the latest, and from then
on every call finds it. -/
theorem calls_reach_end (s : Scanner) : ∃ k ≤ s.rest.length, .ok .eof ∉ s.calls k ∧
    ∀ n, s.calls (k + n) = s.calls k ++ List.replicate n (.ok .eof) := by
  induction hn : s.rest.length using Nat.strongRecOn generalizing s with
  | _ n ih =>
  subst hn
  by_cases heof : s.next.1 = .ok .eof
  · refine ⟨0, Nat.zero_le _, List.not_mem_nil, fun n => ?_⟩
    rw [Nat.zero_add]
    cases n with
    | zero => rfl
    | succ n => exact congrArg₂ List.cons heof (calls_of_rest_nil (next_of_eof heof) n)
  · have hlt := next_length_lt heof
    obtain ⟨k, hk, hnot, hend⟩ := ih _ hlt s.next.2 rfl
    refine ⟨k + 1, Nat.succ_le_of_lt (Nat.lt_of_le_of_lt hk hlt), ?_, fun n => ?_⟩
    · exact List.not_mem_cons_of_ne_of_not_mem (Ne.symm heof) hnot
    · rw [Nat.add_right_comm]
      exact congrArg _ (hend n)

end Scanner

/-! ## Sources -/

/-- One error is about the leftmost word that cannot be read. -/
theorem FirstUnreadable.unique {text : List Char} {e e' : LexError} (h : FirstUnreadable text e)
    (h' : FirstUnreadable text e') : e = e' := by
  obtain ⟨before, word, after, htext, hword, hfirst⟩ := h
  obtain ⟨before', word', after', htext', hword', hfirst'⟩ := h'
  have hlength : before.length = before'.length :=
    Nat.le_antisymm (hfirst _ _ _ _ htext' hword') (hfirst' _ _ _ _ htext hword)
  rw [htext', List.append_assoc, List.append_assoc] at htext
  obtain ⟨rfl, hrest⟩ := List.append_inj htext hlength.symm
  exact hword.unique hword' hrest.symm

/-- In a text that can be read no word is found that cannot. -/
theorem ReadableBetween.not_unreadable {text before word after : List Char} {e : LexError}
    (h : ReadableBetween text 0 text.length) (htext : text = before ++ word ++ after) :
    ¬ Unreadable before word after e := by
  intro hword
  obtain ⟨c, cs, rfl, -⟩ := hword.front
  have hstart := h _ _ _ _ htext hword (Nat.zero_le _)
  rw [htext] at hstart
  simp only [List.length_append, List.length_cons] at hstart
  omega

theorem ReadableBetween.not_firstUnreadable {text : List Char} {e : LexError}
    (h : ReadableBetween text 0 text.length) : ¬ FirstUnreadable text e := by
  rintro ⟨before, word, after, htext, hword, -⟩
  exact h.not_unreadable htext hword

/-- Nothing in a text is unreadable where its characters are those of sources and its numbers are
small enough. -/
theorem readableBetween_iff {text : List Char} : ReadableBetween text 0 text.length ↔
    (∀ c ∈ text, isSourceChar c) ∧ ∀ before digits after, text = before ++ digits ++ after →
      IsNumber before digits after → ofDigits 10 digits ≤ 2 ^ 63 - 1 := by
  constructor
  · intro h
    refine ⟨fun c hc => ?_, fun before digits after htext hnumber => ?_⟩
    · obtain ⟨before, after, htext⟩ := List.append_of_mem hc
      rw [List.append_cons] at htext
      by_contra hchar
      exact h.not_unreadable htext (.character (Bool.of_not_eq_true hchar))
    · by_contra hlarge
      exact h.not_unreadable htext (.number hnumber (Nat.lt_of_not_le hlarge))
  · rintro ⟨hchars, hnumbers⟩ before word after e htext hword -
    exfalso
    cases hword with
    | @character _ c hc =>
      rw [hchars c (by simp [htext])] at hc
      cases hc
    | number hnumber hlarge =>
      exact absurd (hnumbers _ _ _ htext hnumber) (Nat.not_le_of_lt hlarge)

/-- **The scanner reads exactly the texts over its alphabet**, with numbers that are small enough,
and otherwise reports the leftmost word that cannot be read. Its calls can go on after an error:
each that does not find the end consumes a character, an error consumes the blanks in front and the
word that it is about, and after at most as many calls as there are characters the end is found,
for good. -/
theorem scanner_reads_any_text (source : String) :
    ((∃ ts, Token.ofSource source = .ok ts) ↔
      (∀ c ∈ source.toList, isSourceChar c) ∧
        ∀ before digits after, source.toList = before ++ digits ++ after →
          IsNumber before digits after → ofDigits 10 digits ≤ 2 ^ 63 - 1) ∧
    (∀ e, Token.ofSource source = .error e ↔ FirstUnreadable source.toList e) ∧
    (∀ n, let s := (Scanner.ofString source).behind n
      s.rest = source.toList.drop s.column ∧
      (s.next.1 ≠ .ok .eof → s.next.2.rest.length < s.rest.length) ∧
      ∀ e, s.next.1 = .error e → ∃ blanks word, (∀ c ∈ blanks, isBlank c) ∧
        s.rest = blanks ++ word ++ s.next.2.rest ∧
        Unreadable (source.toList.take s.column ++ blanks) word s.next.2.rest e) ∧
    ∃ k ≤ source.length, .ok .eof ∉ (Scanner.ofString source).calls k ∧
      ∀ n, (Scanner.ofString source).calls (k + n) =
        (Scanner.ofString source).calls k ++ List.replicate n (.ok .eof) := by
  have hstart := Scanner.standsIn_ofString source
  obtain ⟨hok, herror⟩ := Scanner.outcome_of_tokens hstart .refl
  have hfirst : ∀ e, Token.ofSource source = .error e ↔ FirstUnreadable source.toList e := by
    refine fun e => ⟨herror e, fun he => ?_⟩
    cases htokens : Token.ofSource source with
    | ok ts => exact absurd he (hok ts htokens).not_firstUnreadable
    | error e' => rw [he.unique (herror e' htokens)]
  refine ⟨?_, hfirst, fun n => ?_, ?_⟩
  · rw [← readableBetween_iff]
    constructor
    · rintro ⟨ts, hts⟩
      exact hok ts hts
    · intro hread
      cases htokens : Token.ofSource source with
      | ok ts => exact ⟨ts, rfl⟩
      | error e => exact absurd (herror e htokens) hread.not_firstUnreadable
  · obtain ⟨before, hstands⟩ := Scanner.exists_standsIn_behind hstart n
    have hbefore : source.toList.take ((Scanner.ofString source).behind n).column = before := by
      rw [hstands.column, hstands.text, List.take_left]
    refine ⟨?_, Scanner.next_length_lt, fun e he => ?_⟩
    · rw [hstands.column, hstands.text, List.drop_left]
    · obtain ⟨blanks, word, hstep⟩ := hstands.steps
      exact ⟨blanks, word, hstep.isBlank, hstep.rest, hbefore.symm ▸ hstep.unreadable he⟩
  · have hend := Scanner.calls_reach_end (Scanner.ofString source)
    rwa [show (Scanner.ofString source).rest.length = source.length from String.length_toList]
      at hend

/-- An error is about a character, and the digits behind it are a number again. -/
example : (Scanner.ofString " a7§8").calls 5 =
    [.ok (.ident "a7"), .error (.unexpectedCharacter '§' 4), .ok (.int 8), .ok .eof, .ok .eof] := by
  decide

end OperandCodec
