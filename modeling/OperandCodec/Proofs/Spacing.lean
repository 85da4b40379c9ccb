import OperandCodec.Expr.Spacing
import OperandCodec.Proofs.Scanning
/-!
# Reading tokens back

A text that is put together from tokens and blanks is read back as these
tokens if they are kept apart, and only then (`tokens_read_back_iff`). That
they are read back is an induction along the tokens: each is read up to a
character that it does not go on with. For the other direction a token that
runs into the next one swallows it whole, so fewer tokens are read than were
written (`length_le_of_tokens`).
-/

namespace OperandCodec

open Token Text

/-- Blanks in front of a text have no tokens. -/
theorem Scanner.tokens_blanks_append {blanks : List Char} (h : ∀ c ∈ blanks, isBlank c)
    (column : Nat) (text : List Char) : (Scanner.mk column (blanks ++ text)).tokens =
      (Scanner.mk (column + blanks.length) text).tokens := by
  induction blanks generalizing column with
  | nil => rfl
  | cons c blanks ih =>
    obtain ⟨hc, hblanks⟩ := List.forall_mem_cons.1 h
    rw [List.cons_append, tokens_eq, next_blank hc, ← tokens_eq, ih hblanks, List.length_cons,
      Nat.add_assoc, Nat.add_comm 1]

/-! ## Words -/

/-- The words that stand for a token. -/
inductive Spells : List Char → Token → Prop where
  | symbol {c : Char} {t : Token} : ofChar? c = some t → Spells [c] t
  | identifier {c : Char} {cs : List Char} : isIdentStart c → (∀ x ∈ c :: cs, isIdentRest x) →
      Spells (c :: cs) (.ident (String.ofList (c :: cs)))
  | digits {c : Char} {cs : List Char} {n : Value} : (∀ x ∈ c :: cs, x.isDigit) →
      Value.ofInt? (ofDigits 10 (c :: cs)) = some n → Spells (c :: cs) (.int n)

/-- A token goes on with letters, digits and underscores at most. -/
theorem isIdentRest_of_goesOn {c : Char} {t : Token} (h : t.goesOn c) : isIdentRest c := by
  cases t with
  | ident => exact h
  | int => exact isIdentRest_of_isDigit h
  | _ => cases h

theorem goesOn_eq_false {c : Char} (hc : isIdentRest c = false) (t : Token) :
    t.goesOn c = false := by
  by_contra h
  rw [isIdentRest_of_goesOn (by simpa using h)] at hc
  cases hc

theorem goesOn_of_isBlank {c : Char} (hc : isBlank c) (t : Token) : t.goesOn c = false :=
  goesOn_eq_false (isIdentRest_eq_false_of_isBlank hc) t

/-- A symbol goes on with nothing, and nothing goes on with it. -/
theorem goesOn_of_ofChar? {c : Char} {t : Token} (hc : ofChar? c = some t) :
    t.goesOn = (fun _ => false) ∧ ∀ t' : Token, t'.runsInto t = false := by
  unfold ofChar? at hc
  split at hc <;> cases hc <;> exact ⟨rfl, fun t' => by cases t' <;> rfl⟩

/-- Zeros in front of a number do not change it. -/
theorem ofDigits_replicate_zero_append (zeros : Nat) (digits : List Char) :
    ofDigits 10 (List.replicate zeros '0' ++ digits) = ofDigits 10 digits := by
  induction zeros with
  | zero => rfl
  | succ zeros ih =>
    rw [List.replicate_succ, List.cons_append, ← ih]
    rfl

namespace Spells

variable {word text : List Char} {t t' : Token}

theorem of_text (h : ∃ c, t.text.toList = [c] ∧ ofChar? c = some t) : Spells t.text.toList t := by
  obtain ⟨c, hword, hc⟩ := h
  rw [hword]
  exact .symbol hc

theorem of_isIdentifier {name : String} (h : isIdentifier name) :
    Spells name.toList (.ident name) := by
  obtain ⟨hstart, hall⟩ := Bool.and_eq_true_iff.1 h
  have hname : Spells name.toList (.ident (String.ofList name.toList)) := by
    rcases hchars : name.toList with - | ⟨c, cs⟩
    · rw [hchars] at hstart
      cases hstart
    · rw [hchars] at hstart hall
      exact .identifier hstart (List.all_eq_true.1 hall)
  rwa [String.ofList_toList] at hname

theorem of_digits {n : Value} (hword : ∀ c ∈ word, c.isDigit) (hne : word ≠ [])
    (hn : Value.ofInt? (ofDigits 10 word) = some n) : Spells word (.int n) := by
  obtain ⟨c, cs, rfl⟩ := List.exists_cons_of_ne_nil hne
  exact .digits hword hn

/-- **A token that is written down is spelled.** -/
theorem written (ht : t.isWritable) (zeros : Nat) : Spells (t.written zeros) t := by
  cases t with
  | ident name => exact of_isIdentifier ht
  | int n =>
    obtain ⟨hdigits, hne, hvalue⟩ := digits_text (of_decide_eq_true ht)
    have hword : ∀ c ∈ List.replicate zeros '0' ++ n.text.toList, c.isDigit := by
      intro c hc
      rcases List.mem_append.1 hc with hc | hc
      · obtain rfl := List.eq_of_mem_replicate hc
        rfl
      · exact hdigits c hc
    rw [← ofDigits_replicate_zero_append zeros] at hvalue
    exact of_digits hword (List.append_ne_nil_of_right_ne_nil _ hne) hvalue
  | eof => cases ht
  | _ => exact of_text ⟨_, rfl, rfl⟩

theorem ne_eof (h : Spells word t) : t ≠ .eof := by
  cases h with
  | symbol hc => exact (kind_of_ofChar? hc).2.2.2.2
  | identifier => nofun
  | digits => nofun

theorem ne_nil (h : Spells word t) : word ≠ [] := by
  cases h <;> nofun

/-- **A word is read up to a character that its token does not go on with.** -/
theorem next (h : Spells word t) (htext : StopsAt t.goesOn text) (column : Nat) :
    (Scanner.mk column (word ++ text)).next = (.ok t, ⟨column + word.length, text⟩) := by
  cases h with
  | symbol hc => exact Scanner.next_of_ofChar? hc column text
  | identifier hc hword =>
    refine Scanner.next_identifier ?_ hword (List.cons_ne_nil _ _) htext column
    rintro _ ⟨⟩
    exact hc
  | digits hword hn => exact Scanner.next_digits hword (List.cons_ne_nil _ _) hn htext column

/-- Whatever follows, the word is passed over with all that goes on with it. -/
theorem rest_next (h : Spells word t) (column : Nat) :
    (Scanner.mk column (word ++ text)).next.2.rest = text.dropWhile t.goesOn := by
  cases h with
  | symbol hc =>
    rw [List.singleton_append, Scanner.next_of_ofChar? hc, (goesOn_of_ofChar? hc).1]
    cases text <;> rfl
  | identifier hc hword =>
    rw [List.cons_append, Scanner.next_of_isIdentStart hc, ← List.cons_append]
    exact List.dropWhile_append_of_pos hword
  | digits hword hn =>
    rw [List.cons_append, Scanner.next_of_isDigit (hword _ List.mem_cons_self), ← List.cons_append]
    exact List.dropWhile_append_of_pos hword

/-- A token that runs into another goes on with all of its word. -/
theorem goesOn (h : Spells word t') (hrun : t.runsInto t') : ∀ c ∈ word, t.goesOn c := by
  cases h with
  | symbol hc =>
    rw [(goesOn_of_ofChar? hc).2 t] at hrun
    cases hrun
  | identifier _ hword =>
    cases t with
    | ident => exact hword
    | _ => cases hrun
  | digits hword =>
    cases t with
    | ident => exact fun c hc => isIdentRest_of_isDigit (hword c hc)
    | int => exact hword
    | _ => cases hrun

/-- A token that does not run into another stops at its word. -/
theorem stopsAt (h : Spells word t') (hrun : t.runsInto t' = false) :
    StopsAt t.goesOn (word ++ text) := by
  cases h with
  | symbol hc =>
    obtain ⟨-, -, -, hrest, -⟩ := kind_of_ofChar? hc
    exact stopsAt_cons (goesOn_eq_false hrest t)
  | identifier hc =>
    refine stopsAt_cons ?_
    cases t with
    | ident => cases hrun
    | int => exact isDigit_eq_false_of_isIdentStart hc
    | _ => rfl
  | digits =>
    refine stopsAt_cons ?_
    cases t with
    | ident | int => cases hrun
    | _ => rfl

end Spells

/-! ## Written tokens -/

namespace WrittenToken

variable {w : WrittenToken} {ws : List WrittenToken} {lead : Gap}

/-- What is written stands for its token. -/
theorem spells (w : WrittenToken) : Spells w.word w.token :=
  .written w.writable w.zeros

theorem text_append (w : WrittenToken) (rest : List Char) :
    w.text ++ rest = w.word ++ (w.gap.1 ++ rest) :=
  List.append_assoc _ _ _

/-- **A token stops at what follows it** if it does not run into the next token, or if blanks stand
between them. -/
theorem stopsAt_iff : StopsAt w.token.goesOn (w.gap.1 ++ ws.flatMap text) ↔
    ∀ w' ∈ ws.head?, w.token.runsInto w'.token → w.gap.1 ≠ [] := by
  obtain ⟨t, hwritable, zeros, blanks, hblanks⟩ := w
  cases blanks with
  | cons c blanks =>
    have hc := goesOn_of_isBlank (hblanks c List.mem_cons_self) t
    exact ⟨fun _ _ _ _ => List.cons_ne_nil c blanks, fun _ => stopsAt_cons hc⟩
  | nil =>
    cases ws with
    | nil => exact ⟨fun _ => nofun, fun _ => nofun⟩
    | cons w' ws =>
      have hnext : (w' :: ws).flatMap text = w'.word ++ (w'.gap.1 ++ ws.flatMap text) :=
        w'.text_append _
      rw [List.nil_append, hnext]
      cases hrun : t.runsInto w'.token with
      | false =>
        refine ⟨fun _ => ?_, fun _ => w'.spells.stopsAt hrun⟩
        rintro _ ⟨⟩ hrun'
        exact absurd (hrun.symm.trans hrun') Bool.false_ne_true
      | true =>
        obtain ⟨c, cs, hword⟩ := List.exists_cons_of_ne_nil w'.spells.ne_nil
        have hc : t.goesOn c := w'.spells.goesOn hrun c (hword ▸ List.mem_cons_self)
        refine ⟨fun hstops => ?_, fun hgap => absurd rfl (hgap w' rfl hrun)⟩
        rw [hword] at hstops
        exact absurd ((hstops c rfl).symm.trans hc) Bool.false_ne_true

/-- **Tokens that are kept apart are read back.** -/
theorem KeptApart.scans (h : KeptApart ws) :
    Scans (ws.flatMap text) (ws.map (·.token) ++ [.eof]) := by
  induction ws with
  | nil => exact .nil
  | cons w ws ih =>
    obtain ⟨hgap, hws⟩ := List.isChain_cons.1 h
    have hrest : Scans (w.gap.1 ++ ws.flatMap text) (ws.map (·.token) ++ [.eof]) := by
      intro column
      rw [Scanner.tokens_blanks_append w.gap.2]
      exact ih hws _
    rw [List.flatMap_cons, text_append]
    exact .of_next w.spells.ne_eof hrest (w.spells.next (stopsAt_iff.2 hgap))

/-! ## Tokens that run together -/

/-- A run stands for whole tokens: it leaves blanks, and the last of the tokens. Where it starts
with the first of them, this one is not left. -/
theorem exists_dropWhile (t : Token) (ws : List WrittenToken) :
    ∃ (lead : Gap) (rest : List WrittenToken),
      (ws.flatMap text).dropWhile t.goesOn = lead.1 ++ rest.flatMap text ∧
      rest.length ≤ ws.length ∧
      ∀ w ∈ ws.head?, t.runsInto w.token → rest.length < ws.length := by
  induction ws with
  | nil => exact ⟨⟨[], nofun⟩, [], rfl, Nat.le_refl 0, nofun⟩
  | cons w ws ih =>
    have htext : (w :: ws).flatMap text = w.word ++ (w.gap.1 ++ ws.flatMap text) :=
      w.text_append _
    cases hrun : t.runsInto w.token with
    | false =>
      refine ⟨⟨[], nofun⟩, w :: ws, ?_, Nat.le_refl _, ?_⟩
      · rw [List.nil_append, htext]
        exact dropWhile_of_stopsAt (w.spells.stopsAt hrun)
      · rintro _ ⟨⟩ hrun'
        exact absurd (hrun.symm.trans hrun') Bool.false_ne_true
    | true =>
      rw [htext, List.dropWhile_append_of_pos (w.spells.goesOn hrun)]
      rcases hgap : w.gap.1 with - | ⟨c, blanks⟩
      · obtain ⟨lead, rest, hrest, hle, -⟩ := ih
        exact ⟨lead, rest, hrest, Nat.le_succ_of_le hle, fun _ _ _ => Nat.lt_succ_of_le hle⟩
      · have hc : isBlank c := w.gap.2 c (hgap ▸ List.mem_cons_self)
        refine ⟨w.gap, ws, ?_, Nat.le_succ _, fun _ _ _ => Nat.lt_succ_self _⟩
        rw [hgap]
        exact dropWhile_of_stopsAt (stopsAt_cons (goesOn_of_isBlank hc t))

/-- **No more tokens are read than were written**, and as many only if they are kept apart. The end
counts on both sides. -/
theorem length_le_of_tokens (lead : Gap) (ws : List WrittenToken) {column : Nat} {ts : List Token}
    (h : (Scanner.mk column (lead.1 ++ ws.flatMap text)).tokens = .ok ts) :
    ts.length ≤ ws.length + 1 ∧ (ts.length = ws.length + 1 → KeptApart ws) := by
  induction hn : ws.length using Nat.strongRecOn generalizing lead ws column ts with
  | _ n ih =>
  subst hn
  rw [Scanner.tokens_blanks_append lead.2] at h
  cases ws with
  | nil =>
    obtain rfl : [.eof] = ts := Except.ok.inj ((Scans.nil _).symm.trans h)
    exact ⟨Nat.le_refl _, fun _ => .nil⟩
  | cons w ws =>
    rw [List.flatMap_cons, text_append] at h
    obtain ⟨-, rfl⟩ | ⟨t, ts', hnext, hts', rfl⟩ := Scanner.tokens_cases h
    · simp
    by_cases hgap : ∀ w' ∈ ws.head?, w.token.runsInto w'.token → w.gap.1 ≠ []
    · -- the first token is read by itself
      rw [w.spells.next (stopsAt_iff.2 hgap)] at hts'
      obtain ⟨hle, hapart⟩ := ih ws.length (Nat.lt_succ_self _) w.gap ws hts' rfl
      refine ⟨Nat.succ_le_succ hle, fun hlength => ?_⟩
      exact List.isChain_cons.2 ⟨hgap, hapart (Nat.succ.inj hlength)⟩
    · -- the first token is read together with the next one at least
      push Not at hgap
      obtain ⟨w', hw', hrun, hnone⟩ := hgap
      obtain ⟨lead', rest, hrest, -, hlt⟩ := exists_dropWhile w.token ws
      have hbehind : (Scanner.mk (column + lead.1.length)
          (w.word ++ (w.gap.1 ++ ws.flatMap text))).next.2.rest = lead'.1 ++ rest.flatMap text := by
        rw [w.spells.rest_next, hnone, List.nil_append, hrest]
      generalize (Scanner.mk (column + lead.1.length) _).next.2 = s at hts' hbehind
      obtain ⟨column', text'⟩ := s
      obtain rfl : text' = lead'.1 ++ rest.flatMap text := hbehind
      have hfewer : rest.length < ws.length := hlt w' hw' hrun
      obtain ⟨hle, -⟩ := ih rest.length (Nat.lt_succ_of_lt hfewer) lead' rest hts' rfl
      simp only [List.length_cons]
      omega

/-- **Tokens are read back from what is written if they are kept apart, and only then.** Whatever
blanks stand before, between and behind them and however many zeros before their integers, the
source has these tokens and the end; but where one token runs into the next without a blank, it does
not. -/
theorem tokens_read_back_iff (lead : Gap) (ws : List WrittenToken) :
    Token.ofSource (source lead ws) = .ok (ws.map (·.token) ++ [.eof]) ↔ KeptApart ws := by
  have hsource : Token.ofSource (source lead ws) =
      (Scanner.mk 0 (lead.1 ++ ws.flatMap text)).tokens := by
    rw [Token.ofSource, Scanner.ofString, source, String.toList_ofList]
  rw [hsource]
  constructor
  · intro h
    exact (length_le_of_tokens lead ws h).2 (by simp)
  · intro h
    rw [Scanner.tokens_blanks_append lead.2]
    exact h.scans _

/-- An integer need not be kept apart from an identifier behind it. -/
example : Token.ofSource "007x" = .ok [.int 7, .ident "x", .eof] := by
  decide +kernel

end WrittenToken

end OperandCodec
