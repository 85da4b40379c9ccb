import OperandCodec.Proofs.Parser.Spans
/-!
# The parser and its grammar

The parser reads a phrase exactly where the grammar has one and the limits
leave room for it (`ReadsAt`). A chain stops at the first token that does not
go on with it, so its parts are read where nothing tighter could go on. The
levels that are open are those counted, which makes the recursion on levels
agree with the count: what is refused for its depth is refused by the count.
-/

namespace OperandCodec

open OperandCodec.Parser OperandCodec.Span

/-- From the states in which `depth` levels are open, a parser reads the spans of a kind: it
succeeds exactly where it can pass over one and the token behind it is one to stop at. -/
def ReadsAt (depth : Nat) (x : ParserM Expr) (A : Span → Prop) (stops : Token → Prop) : Prop :=
  ∀ s e s', s.depth = depth → (runFrom x s = (.ok e, s') ↔
    ∃ a, A a ∧ a.tree = e ∧ Consumes s a s' ∧ stops (s'.rest.headD .eof))

/-- The token in front, where it is not the end that stands behind the last one. -/
theorem head?_eq_some_of_headD {ts : List Token} {t : Token} (h : ts.headD .eof = t)
    (ht : t ≠ .eof) : ts.head? = some t := by
  cases ts with
  | nil => exact absurd h.symm ht
  | cons u ts => exact congrArg some h

theorem headD_of_head? {ts : List Token} {t : Token} (h : ts.head? = some t) :
    ts.headD .eof = t := by
  obtain ⟨rest, rfl⟩ := List.head?_eq_some_iff.1 h
  rfl

/-! ## Chains -/

section Chains

variable {depth : Nat} {part : ParserM Expr} {A : Span → Prop} {stops : Token → Prop}
variable {op? : Token → Option BinaryOp}

/-- A chain that goes on from a chain passed over ends with a chain passed over. The induction is on
the turns that are left; the chain so far grows to the right. -/
theorem chained_of_chainFrom (hpart : ReadsAt depth part A stops)
    (htoken : ∀ t op, op? t = some op → t = op.token) {n : Nat} {s₀ s s' : ParserState} {b : Span}
    {e : Expr} (hb : Chained op? A b) (hs : s.depth = depth) (hcons : Consumes s₀ b s)
    (hstops : stops (s.rest.headD .eof))
    (hrun : runFrom (chainFrom op? part n b.tree) s = (.ok e, s')) :
    ∃ c, Chained op? A c ∧ c.tree = e ∧ Consumes s₀ c s' ∧
      op? (s'.rest.headD .eof) = none ∧ stops (s'.rest.headD .eof) := by
  induction n generalizing s b with
  | zero => cases hrun
  | succ n ih =>
    rw [chainFrom, runFrom_peek_bind] at hrun
    cases hop : op? (s.rest.headD .eof) with
    | none =>
      rw [hop] at hrun
      cases hrun
      exact ⟨b, hb, rfl, hcons, hop, hstops⟩
    | some op =>
      have hhead := htoken _ _ hop
      rw [hop, runFrom_operator_bind] at hrun
      -- the operator is one of those that the limit allows, or the run has failed
      by_cases hlt : s.operators < maxOperators
      · rw [if_pos hlt, runFrom_bind_eq_ok_iff] at hrun
        obtain ⟨r, t, hr, hrun⟩ := hrun
        obtain ⟨a, ha, rfl, hcons', hstops'⟩ := (hpart s.behindOperator _ _ hs).1 hr
        rw [hhead] at hop
        refine ih (hb.join hop ha) (hcons'.depth.trans hs) (consumes_join_iff.2 ?_) hstops' hrun
        exact ⟨s, hcons, head?_eq_some_of_headD hhead op.token_ne_eof, hlt, hcons'⟩
      · rw [if_neg hlt] at hrun
        cases hrun

/-- A chain that can be passed over is: it comes to the state behind it with turns to spare. The
induction follows the chain, which is grouped to the left as the parser builds it. -/
theorem chain_reaches (hpart : ReadsAt depth part A stops)
    (hlow : ∀ op : BinaryOp, op? op.token = some op → stops op.token) {c : Span}
    (hc : Chained op? A c) {s s' : ParserState} (hs : s.depth = depth) (hcons : Consumes s c s')
    (hstops : stops (s'.rest.headD .eof)) :
    ∃ n, 0 < n ∧ maxOperators < n + s'.operators ∧
      runFrom (chain op? part) s = runFrom (chainFrom op? part n c.tree) s' := by
  induction hc generalizing s' with
  | single ha =>
    refine ⟨maxOperators + 1, Nat.succ_pos _, by omega, ?_⟩
    have hfirst := (hpart _ _ _ hs).2 ⟨_, ha, rfl, hcons, hstops⟩
    exact runFrom_bind_of_ok hfirst _
  | @join l r op _ hop hr ih =>
    obtain ⟨t, hl, hhead, hlt, hcons'⟩ := consumes_join_iff.1 hcons
    have hnext := headD_of_head? hhead
    obtain ⟨n, hn, hturns, hrun⟩ := ih hl (hnext ▸ hlow op hop)
    obtain ⟨n, rfl⟩ : ∃ k, n = k + 1 := ⟨n - 1, by omega⟩
    -- each turn counts an operator, so the turns outlast the operators that are admissible
    have hops := hcons.operators
    have hle := hcons.operators_le
    have hops' := hcons'.operators
    simp only [Span.join, ParserState.behindOperator] at hops hle hops'
    refine ⟨n, by omega, by omega, ?_⟩
    have hright := (hpart t.behindOperator _ _ (hl.depth.trans hs)).2 ⟨r, hr, rfl, hcons', hstops⟩
    rw [hrun, chainFrom, runFrom_peek_bind, hnext, hop, runFrom_operator_bind, if_pos hlt,
      runFrom_bind_of_ok hright]
    rfl

/-- **A chain of parts is read where its parts are**, up to a token that neither goes on with the
chain nor with its last part. -/
theorem ReadsAt.chain (hpart : ReadsAt depth part A stops)
    (htoken : ∀ t op, op? t = some op → t = op.token)
    (hlow : ∀ op : BinaryOp, op? op.token = some op → stops op.token) :
    ReadsAt depth (chain op? part) (Chained op? A) fun t => op? t = none ∧ stops t := by
  intro s e s' hs
  constructor
  · intro hrun
    obtain ⟨e₁, s₁, hfirst, hrun⟩ := runFrom_bind_eq_ok_iff.1 hrun
    obtain ⟨a, ha, rfl, hcons, hstops⟩ := (hpart _ _ _ hs).1 hfirst
    exact chained_of_chainFrom hpart htoken (.single ha) (hcons.depth.trans hs) hcons hstops hrun
  · rintro ⟨c, hc, rfl, hcons, hend, hstops⟩
    obtain ⟨n, hn, -, hrun⟩ := chain_reaches hpart hlow hc hs hcons hstops
    obtain ⟨n, rfl⟩ : ∃ k, n = k + 1 := ⟨n - 1, by omega⟩
    rw [hrun, chainFrom, runFrom_peek_bind, hend]
    rfl

end Chains

/-! ## Operands -/

section Operands

variable {v : Variable} {depth : Nat} {inner : ParserM Expr}

/-- A sum is read where operands are, up to a token that goes on with neither sum nor product. -/
theorem ReadsAt.expression (h : ReadsAt depth inner (OfPhrase v .operand) fun _ => True) :
    ReadsAt depth (expression inner) (OfPhrase v .sum) fun t =>
      additive? t = none ∧ multiplicative? t = none := by
  have hproduct := h.chain (fun t op h => (multiplicative?_eq_some_iff.1 h).1) fun _ _ => trivial
  rw [← ofPhrase_product] at hproduct
  have hsum := hproduct.chain (fun t op h => (additive?_eq_some_iff.1 h).1) fun op hop => ?_
  · simp only [← ofPhrase_sum, and_true] at hsum
    exact hsum
  · cases op <;> first | exact ⟨rfl, trivial⟩ | cases hop

/-- What is read one level deeper is read behind a sign or an opening parenthesis. -/
theorem nested_eq_ok_iff {A : Span → Prop} {stops : Token → Prop} {s s' : ParserState} {t : Token}
    {e : Expr} (h : s.depth < maxNesting → ReadsAt (s.depth + 1) inner A stops)
    (ht : s.rest.head? = some t) (e' : Expr) : runFrom (nested inner) s = (.ok e, s') ↔
      ∃ a, A a ∧ a.tree = e ∧ stops (s'.rest.headD .eof) ∧
        Consumes s (a.behind t e') s' := by
  simp only [runFrom_nested_eq_ok_iff, consumes_behind_iff]
  constructor
  · rintro ⟨hlt, u, hinner, rfl⟩
    obtain ⟨a, ha, htree, hcons, hstops⟩ := (h hlt s.inside _ _ rfl).1 hinner
    -- the inner parser closes the levels that it opens, so closing one more restores the count
    have hdepth : u.depth = s.depth + 1 := hcons.depth
    refine ⟨a, ha, htree, hstops, ht, hlt, ?_, ?_⟩
    · dsimp only
      omega
    · rw [← hdepth]
      exact hcons
  · rintro ⟨a, ha, htree, hstops, -, hlt, hdepth, hcons⟩
    refine ⟨hlt, _, (h hlt s.inside _ _ rfl).2 ⟨a, ha, htree, hcons, hstops⟩, ?_⟩
    rw [Nat.add_sub_cancel, ← hdepth]

theorem runFrom_close_eq_ok_iff {s s' : ParserState} :
    runFrom close s = (.ok (), s') ↔
      s.rest.head? = some .closeParen ∧ s' = { s with rest := s.rest.tail } := by
  rw [close, runFrom_peek_bind]
  constructor
  · intro h
    cases hrest : s.rest with
    | nil =>
      rw [hrest] at h
      cases h
    | cons t ts =>
      rw [hrest, List.headD_cons] at h
      cases t <;> cases h
      rw [← hrest]
      exact ⟨hrest ▸ rfl, rfl⟩
  · rintro ⟨hhead, rfl⟩
    rw [headD_of_head? hhead]
    rfl

/-- An operand that is read is one of the grammar, within the limits. -/
theorem operand_of_run (h : depth < maxNesting →
      ReadsAt (depth + 1) inner (OfPhrase v .operand) fun _ => True)
    {s s' : ParserState} {e : Expr} (hs : s.depth = depth)
    (hrun : runFrom (operandWith v inner) s = (.ok e, s')) :
    ∃ d : Derivation .operand, d.tree = e ∧ Consumes s (d.span v) s' := by
  subst hs
  rw [operandWith, runFrom_peek_bind] at hrun
  cases hrest : s.rest with
  | nil =>
    rw [hrest] at hrun
    cases hrun
  | cons t ts =>
    have ht : s.rest.head? = some t := by rw [hrest]; rfl
    rw [hrest, List.headD_cons] at hrun
    cases t with
    | minus =>
      obtain ⟨e', t, hnested, hpure⟩ := runFrom_bind_eq_ok_iff.1 hrun
      cases hpure
      obtain ⟨_, ⟨d, rfl⟩, rfl, -, hcons⟩ := (nested_eq_ok_iff h ht (Expr.minus e')).1 hnested
      exact ⟨.minus d, rfl, hcons⟩
    | plus =>
      obtain ⟨_, ⟨d, rfl⟩, rfl, -, hcons⟩ := (nested_eq_ok_iff h ht e).1 hrun
      exact ⟨.plus d, rfl, hcons⟩
    | openParen =>
      obtain ⟨e', t, hnested, hrun⟩ := runFrom_bind_eq_ok_iff.1 hrun
      obtain ⟨_, t', hclose, hpure⟩ := runFrom_bind_eq_ok_iff.1 hrun
      cases hpure
      obtain ⟨_, ⟨d, rfl⟩, rfl, -, hcons⟩ :=
        (nested_eq_ok_iff (fun hlt => (h hlt).expression) ht e).1 hnested
      exact ⟨.parens d, rfl, consumes_closedBy_iff.2 ⟨t, hcons, runFrom_close_eq_ok_iff.1 hclose⟩⟩
    | int n =>
      cases hrun
      exact ⟨.literal n, rfl, consumes_token_iff.2 ⟨ht, rfl⟩⟩
    | ident name =>
      dsimp only at hrun
      by_cases hname : name = v.name
      · rw [if_pos hname] at hrun
        cases hrun
        exact ⟨.var, rfl, consumes_token_iff.2 ⟨hname ▸ ht, rfl⟩⟩
      · rw [if_neg hname] at hrun
        cases hrun
    | closeParen | star | slash | percent | eof => cases hrun

/-- An operand of the grammar within the limits is read. -/
theorem run_of_operand (h : depth < maxNesting →
      ReadsAt (depth + 1) inner (OfPhrase v .operand) fun _ => True)
    {s s' : ParserState} (hs : s.depth = depth) (d : Derivation .operand)
    (hcons : Consumes s (d.span v) s') : runFrom (operandWith v inner) s = (.ok d.tree, s') := by
  subst hs
  rw [operandWith, runFrom_peek_bind]
  cases d with
  | literal n =>
    obtain ⟨ht, rfl⟩ := consumes_token_iff.1 hcons
    rw [headD_of_head? ht]
    rfl
  | var =>
    obtain ⟨ht, rfl⟩ := consumes_token_iff.1 hcons
    rw [headD_of_head? ht]
    dsimp only
    rw [if_pos rfl]
    rfl
  | plus d =>
    obtain ⟨ht, -⟩ := (consumes_behind_iff (a := d.span v)).1 hcons
    rw [headD_of_head? ht]
    exact (nested_eq_ok_iff h ht _).2 ⟨_, ⟨d, rfl⟩, rfl, trivial, hcons⟩
  | minus d =>
    obtain ⟨ht, -⟩ := (consumes_behind_iff (a := d.span v)).1 hcons
    rw [headD_of_head? ht]
    exact runFrom_bind_of_ok ((nested_eq_ok_iff h ht _).2 ⟨_, ⟨d, rfl⟩, rfl, trivial, hcons⟩) _
  | parens d =>
    obtain ⟨t, hcons', hclose⟩ :=
      (consumes_closedBy_iff (a := (d.span v).behind .openParen d.tree)).1 hcons
    obtain ⟨ht, -⟩ := consumes_behind_iff.1 hcons'
    -- the sum inside is read up to the closing parenthesis, which goes on with no chain
    have hstop : additive? (t.rest.headD .eof) = none ∧
        multiplicative? (t.rest.headD .eof) = none := by
      rw [headD_of_head? hclose.1]
      exact ⟨rfl, rfl⟩
    have hnested := (nested_eq_ok_iff (fun hlt => (h hlt).expression) ht d.tree).2
      ⟨_, ⟨d, rfl⟩, rfl, hstop, hcons'⟩
    rw [headD_of_head? ht]
    dsimp only
    rw [runFrom_bind_of_ok hnested, runFrom_bind_of_ok (runFrom_close_eq_ok_iff.2 hclose)]
    rfl

/-- **An operand is read where one more level is.** -/
theorem ReadsAt.operandWith (h : depth < maxNesting →
      ReadsAt (depth + 1) inner (OfPhrase v .operand) fun _ => True) :
    ReadsAt depth (operandWith v inner) (OfPhrase v .operand) fun _ => True := by
  intro s e s' hs
  constructor
  · intro hrun
    obtain ⟨d, htree, hcons⟩ := operand_of_run h hs hrun
    exact ⟨_, ⟨d, rfl⟩, htree, hcons, trivial⟩
  · rintro ⟨_, ⟨d, rfl⟩, rfl, hcons, -⟩
    exact run_of_operand h hs d hcons

/-- **Operands are read wherever the levels left to recurse on are those left to open.** -/
theorem readsAt_operand {levels : Nat} (h : maxNesting ≤ depth + levels) :
    ReadsAt depth (operand v levels) (OfPhrase v .operand) fun _ => True := by
  induction levels generalizing depth with
  | zero =>
    -- no level is left to open, so what stands in for the levels below is never run
    exact .operandWith fun hlt => absurd h (by omega)
  | succ levels ih => exact .operandWith fun _ => ih (by omega)

end Operands

/-! ## Whole inputs -/

/-- **A parser succeeds exactly where a sum stands before the end**, within what the limits have
left; it may have been called before. -/
theorem parse_eq_ok_iff {v : Variable} {s s' : ParserState} {e : Expr} :
    s.parse v = (.ok e, s') ↔ ∃ d : Derivation .sum, d.tree = e ∧ Consumes s (d.span v) s' ∧
      s'.rest.headD .eof = .eof := by
  have hoperand : ReadsAt s.depth (operand v maxNesting) (OfPhrase v .operand) fun _ => True :=
    readsAt_operand (Nat.le_add_left _ _)
  have hsum := hoperand.expression s
  show runFrom (whole v) s = _ ↔ _
  rw [whole, runFrom_peek_bind]
  constructor
  · intro hrun
    split at hrun
    · cases hrun
    · obtain ⟨e', t, hexpr, hrun⟩ := runFrom_bind_eq_ok_iff.1 hrun
      obtain ⟨_, ⟨d, rfl⟩, rfl, hcons, -⟩ := (hsum _ _ rfl).1 hexpr
      rw [runFrom_peek_bind] at hrun
      split at hrun
      · cases hrun
        exact ⟨d, rfl, hcons, ‹_›⟩
      · cases hrun
  · rintro ⟨d, rfl, hcons, hend⟩
    -- a phrase is not empty, so the parser does not refuse the input for that
    have hfirst : s.rest.headD .eof ≠ .eof := by
      obtain ⟨t, ts, htokens⟩ := List.exists_cons_of_ne_nil (d.tokens_ne_nil v)
      have hrest : s.rest = d.tokens v ++ s'.rest := hcons.rest
      rw [hrest, htokens]
      rintro rfl
      exact d.eof_notMem_tokens v (htokens ▸ List.mem_cons_self)
    have hstop : additive? (s'.rest.headD .eof) = none ∧
        multiplicative? (s'.rest.headD .eof) = none := by
      rw [hend]
      exact ⟨rfl, rfl⟩
    have hexpr := (hsum _ _ rfl).2 ⟨_, ⟨d, rfl⟩, rfl, hcons, hstop⟩
    rw [if_neg hfirst, runFrom_bind_of_ok hexpr, runFrom_peek_bind, hend]
    rfl

/-- A token list has a tree where a new parser passes over a sum, up to the end. -/
theorem ofTokens_eq_ok_iff_consumes {v : Variable} {tokens : List Token} {e : Expr} :
    Expr.ofTokens tokens v = .ok e ↔ ∃ s', ∃ d : Derivation .sum, d.tree = e ∧
      Consumes (.ofTokens tokens) (d.span v) s' ∧ s'.rest.headD .eof = .eof := by
  simp only [← parse_eq_ok_iff]
  constructor
  · exact fun h => ⟨_, Prod.ext h rfl⟩
  · rintro ⟨s', h⟩
    exact congrArg Prod.fst h

end OperandCodec
