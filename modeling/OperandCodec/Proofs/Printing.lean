import OperandCodec.Proofs.Parser.Depth
import OperandCodec.Proofs.Parser.Language
import OperandCodec.Proofs.Scanning
/-!
# Printing and parsing

The text of a tree, with a name put in for the variable, has the tokens of
the tree as it is written (`scans_textWith`). So a tree that was parsed is
parsed again from its text, or refused for its depth where the text is
nested deeper than the limit: the text has a parenthesis around every
operation, those that its source could do without as well. And since what is
written for a tree tells it apart, two trees that were parsed share no text.
-/

namespace OperandCodec

open Token Text

/-- A text with a name put in for every `$`. -/
def fillIn (name : String) (text : String) : String :=
  String.ofList (text.toList.flatMap fun c => if c = '$' then name.toList else [c])

/-! ## Putting the name in -/

theorem fillIn_append (name s t : String) :
    fillIn name (s ++ t) = fillIn name s ++ fillIn name t := by
  simp [fillIn]

theorem fillIn_of_notMem {name s : String} (h : '$' ∉ s.toList) : fillIn name s = s := by
  have hself : (s.toList.flatMap fun c => if c = '$' then name.toList else [c]) = s.toList := by
    rw [List.flatMap_congr fun c hc => if_neg (ne_of_mem_of_not_mem hc h)]
    exact List.flatMap_singleton' _
  rw [fillIn, hself, String.ofList_toList]

/-- The text of a value mentions no variable. -/
theorem dollar_notMem_text (n : Value) : '$' ∉ n.text.toList := by
  rw [toList_text, List.mem_append, not_or]
  constructor
  · split <;> decide
  · intro hdigit
    exact absurd (Nat.isDigit_of_mem_toDigits (by decide) (by decide) hdigit) (by decide)

namespace Expr

variable {v : Variable} {e e' : Expr} {text : List Char} {ts : List Token}

/-- **The placeholder in the text of a tree stands for its variable**, and for nothing else. -/
theorem fillIn_text (name : String) (e : Expr) : fillIn name e.text = e.textWith name := by
  rw [text]
  induction e with
  | literal n => exact fillIn_of_notMem (dollar_notMem_text n)
  | var => simp [textWith, fillIn]
  | negate e ih =>
    rw [textWith, fillIn_append, fillIn_append, ih]
    rfl
  | binary op l r ihl ihr =>
    simp only [textWith, fillIn_append, ihl, ihr]
    cases op <;> rfl

/-! ## The tokens of a text -/

/-- The text of a negative value is a sign and the text of the value without it. -/
theorem text_of_neg {n : Value} (hn : n < 0) (hmin : n ≠ Int64.minValue) :
    0 ≤ (-n).toInt ∧ n.text.toList = '-' :: (-n).text.toList := by
  have hneg : n.toInt < 0 := neg_iff_toInt_neg.1 hn
  have hopp := toInt_neg_of_ne_minValue hmin
  have hnonneg : 0 ≤ (-n).toInt := by omega
  refine ⟨hnonneg, ?_⟩
  rw [toList_text, toList_text, if_pos hn, if_neg (mt neg_iff_toInt_neg.1 (Int.not_lt.2 hnonneg)),
    hopp, Int.natAbs_neg]
  rfl

theorem scans_literal {n : Value} (hmin : n ≠ Int64.minValue) (htext : StopsAt Char.isDigit text)
    (h : Scans text ts) :
    Scans (n.text.toList ++ text) ((literal n).written.tokens v ++ ts) := by
  rw [tokens_written_literal]
  by_cases hn : n < 0
  · obtain ⟨hnonneg, hsign⟩ := text_of_neg hn hmin
    obtain ⟨hdigits, hne, hvalue⟩ := digits_text hnonneg
    rw [if_pos hn, hsign]
    exact .symbol rfl (.digits hdigits hne hvalue htext h)
  · obtain ⟨hdigits, hne, hvalue⟩ := digits_text (Int.not_lt.1 (mt neg_iff_toInt_neg.2 hn))
    rw [if_neg hn]
    exact .digits hdigits hne hvalue htext h

theorem scans_name (v : Variable) (htext : StopsAt isIdentRest text) (h : Scans text ts) :
    Scans (v.name.toList ++ text) (.ident v.name :: ts) := by
  have hword : v.name.toList.head?.all isIdentStart ∧ v.name.toList.all isIdentRest ∧
      v.name.toList ≠ [] := by
    cases v <;> decide
  have hname := Scans.identifier ((Option.all_eq_true _ _).1 hword.1) (List.all_eq_true.1 hword.2.1)
    hword.2.2 htext h
  rwa [String.ofList_toList] at hname

theorem toList_symbol (op : BinaryOp) :
    ∃ c, op.symbol.toList = [c] ∧ ofChar? c = some op.token := by
  cases op <;> exact ⟨_, rfl, rfl⟩

/-- **The text of a folded tree has the tokens that are written for the tree**, in front of a text
that goes on with no word. -/
theorem scans_textWith (he : e.Folded) (htext : StopsAt isIdentRest text) (h : Scans text ts) :
    Scans ((e.textWith v.name).toList ++ text) (e.written.tokens v ++ ts) := by
  induction e generalizing text ts with
  | literal n => exact scans_literal he htext.isDigit h
  | var => exact scans_name v htext h
  | negate e ih =>
    have hclose : Scans (')' :: text) (.closeParen :: ts) := .symbol rfl h
    have hinner := ih he.2 (stopsAt_cons rfl) hclose
    have hopen : Scans ('(' :: '-' :: _) (.openParen :: .minus :: _) :=
      .symbol rfl (.symbol rfl hinner)
    simpa [textWith, tokens_written_negate] using hopen
  | binary op l r ihl ihr =>
    obtain ⟨c, hsymbol, htoken⟩ := toList_symbol op
    have hclose : Scans (')' :: text) (.closeParen :: ts) := .symbol rfl h
    have hright := ihr he.2 (stopsAt_cons rfl) hclose
    have hop : Scans (' ' :: c :: ' ' :: _) (op.token :: _) :=
      .blank rfl (.symbol htoken (.blank rfl hright))
    have hleft := ihl he.1 (stopsAt_cons rfl) hop
    have hopen : Scans ('(' :: _) (.openParen :: _) := .symbol rfl hleft
    simpa [textWith, tokens_written_binary, hsymbol] using hopen

/-! ## Parsing a text again -/

/-- The tokens of the text of a folded tree. -/
theorem tokens_of_text (he : e.Folded) (v : Variable) :
    Token.ofSource (fillIn v.name e.text) = .ok (e.written.tokens v ++ [.eof]) := by
  have h := scans_textWith (v := v) he (by simp [StopsAt]) Scans.nil
  rw [List.append_nil] at h
  rw [fillIn_text]
  exact h 0

/-- A written tree that is within the limits is read. -/
theorem ofTokens_written (he : e.Folded) (hnesting : e.nesting ≤ maxNesting)
    (hoperators : e.operators ≤ maxOperators) :
    ofTokens (e.written.tokens v ++ [.eof]) v = .ok e := by
  have hcons : Consumes (.ofTokens (e.written.tokens v ++ [.eof]))
      ((Derivation.term (.single e.written)).span v) ⟨[.eof], 0, 0 + e.operators⟩ :=
    consumes_written rfl (by simpa [ParserState.ofTokens]) (by simpa [ParserState.ofTokens])
  exact ofTokens_eq_ok_iff_consumes.2 ⟨_, _, tree_written he, hcons, rfl⟩

/-- **What is parsed is folded and within the limit on operators.** -/
theorem folded_of_ofSource {source : String} (h : ofSource source v = .ok e) :
    e.Folded ∧ e.operators ≤ maxOperators := by
  obtain ⟨d, -, rfl, -, hoperators, hd⟩ := derivation_of_ofSource h
  exact ⟨folded_tree d hd, d.operators_tree.le.trans hoperators⟩

/-- Folded trees with one text are one tree. -/
theorem eq_of_text_eq (he : e.Folded) (he' : e'.Folded) (h : e.text = e'.text) : e = e' := by
  have htokens := tokens_of_text he .arg
  rw [h, tokens_of_text he' .arg] at htokens
  exact (written_append_inj he he' (Except.ok.inj htokens).symm).1

/-- **Printing and parsing agree.** A tree that was parsed is parsed again from its text, unless
the text is nested too deep, and then it is refused for that; and it shares its text with no other
tree that was parsed, over whichever variable. -/
theorem ofSource_text {source : String} {v : Variable} {e : Expr}
    (h : ofSource source v = .ok e) :
    (e.nesting ≤ maxNesting → ofSource (fillIn v.name e.text) v = .ok e) ∧
    (maxNesting < e.nesting → ofSource (fillIn v.name e.text) v = .error .nestedTooDeep) ∧
    ∀ source' v' e', ofSource source' v' = .ok e' → e ≠ e' → e.text ≠ e'.text := by
  obtain ⟨he, hoperators⟩ := folded_of_ofSource h
  have htext : ofSource (fillIn v.name e.text) v = ofTokens (e.written.tokens v ++ [.eof]) v := by
    rw [ofSource, tokens_of_text he v]
  rw [htext]
  refine ⟨fun hnesting => ?_, fun hdeep => ?_, fun source' v' e' h' hne htext => ?_⟩
  · exact ofTokens_written he hnesting hoperators
  · exact ofTokens_eq_nestedTooDeep _ hdeep hoperators
  · exact hne (eq_of_text_eq he (folded_of_ofSource h').1 htext)

/-- A literal has its sign again. Thirty-three signs before a variable are within the limit, and
their text has as many parentheses besides. -/
theorem ofSource_text_of_signs :
    let product := binary .sub (literal 3) (binary .mul (literal (-5)) (negate var))
    let signs := Nat.repeat negate 33 var
    (ofSource "3 - -5 * -arg" .arg = .ok product ∧ product.text = "(3 - (-5 * (-$)))" ∧
      product.nesting = 4 ∧ ofSource "(3 - (-5 * (-arg)))" .arg = .ok product) ∧
    (ofSource (String.ofList (List.replicate 33 '-' ++ "arg".toList)) .arg = .ok signs ∧
      signs.nesting = 66 ∧ ofSource (fillIn "arg" signs.text) .arg = .error .nestedTooDeep ∧
      ParseError.nestedTooDeep.message = "expression nested deeper than 64 levels") ∧
    product.text ≠ signs.text := by
  have hproduct : ofSource "3 - -5 * -arg" .arg =
      .ok (binary .sub (literal 3) (binary .mul (literal (-5)) (negate var))) := by
    decide +kernel
  have hsigns : ofSource (String.ofList (List.replicate 33 '-' ++ "arg".toList)) .arg =
      .ok (Nat.repeat negate 33 var) := by
    decide +kernel
  obtain ⟨hread, -, hdistinct⟩ := ofSource_text hproduct
  obtain ⟨-, hrefused, -⟩ := ofSource_text hsigns
  refine ⟨⟨hproduct, by decide +kernel, by decide +kernel, ?_⟩,
    ⟨hsigns, by decide +kernel, hrefused (by decide +kernel), by decide +kernel⟩, ?_⟩
  · exact hread (by decide +kernel)
  · exact hdistinct _ _ _ hsigns (by decide +kernel)

end Expr
end OperandCodec
