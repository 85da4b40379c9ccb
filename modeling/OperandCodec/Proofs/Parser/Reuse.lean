import OperandCodec.Expr.Reuse
import OperandCodec.Proofs.Parser.Language
/-!
# Asking a parser again

An error leaves a parser from the middle of an expression, with the levels
open that it was in. What holds nevertheless is said of one step first
(`Balanced`): it drops no token behind the end, a success closes the levels
that it opened, and a failure closes no others. So there is always a level
to close where one is closed (`wholeOr_eq`), and from call to call the parser
only goes forward, up to the first expression that reaches the end; behind
it there is nothing left to read.
-/

namespace OperandCodec

open OperandCodec.Parser

namespace ParserState.Passes

variable {s s' s'' t t' : ParserState}

theorem refl (s : ParserState) : s.Passes s :=
  ⟨[], rfl, List.not_mem_nil⟩

theorem trans (h : s.Passes s') (h' : s'.Passes s'') : s.Passes s'' := by
  obtain ⟨dropped, hrest, heof⟩ := h
  obtain ⟨dropped', hrest', heof'⟩ := h'
  refine ⟨dropped ++ dropped', by rw [hrest, hrest', List.append_assoc], ?_⟩
  exact fun hmem => (List.mem_append.1 hmem).elim heof heof'

/-- The counts of a state do not matter. -/
theorem congr (h : s.Passes s') (hs : t.rest = s.rest) (hs' : t'.rest = s'.rest) :
    t.Passes t' := by
  unfold Passes at h ⊢
  rwa [hs, hs']

/-- A token that is not the end may be dropped. -/
theorem tail (h : s.rest.headD .eof ≠ .eof) (hs' : s'.rest = s.rest.tail) : s.Passes s' := by
  cases hrest : s.rest with
  | nil => exact absurd (by rw [hrest]; rfl) h
  | cons t ts =>
    rw [hrest] at h hs'
    refine ⟨[t], by rw [hrest, hs']; rfl, fun hmem => ?_⟩
    exact h (List.mem_singleton.1 hmem).symm

end ParserState.Passes

/-! ## One step -/

/-- From a state, a step drops no token behind the end; where it succeeds as many levels are open as
before, and where it fails no fewer. -/
structure Balanced {α : Type} (x : ParserM α) (s : ParserState) : Prop where
  passes : s.Passes (runFrom x s).2
  depth_eq : ∀ a, (runFrom x s).1 = .ok a → (runFrom x s).2.depth = s.depth
  depth_le : s.depth ≤ (runFrom x s).2.depth

section Steps

variable {α β : Type} {s t : ParserState} {inner : ParserM Expr} {v : Variable}

theorem balanced_iff {x : ParserM α} {o : Except ParseError α} (h : runFrom x s = (o, t)) :
    Balanced x s ↔ s.Passes t ∧ (∀ a, o = .ok a → t.depth = s.depth) ∧ s.depth ≤ t.depth := by
  constructor
  · rintro ⟨hpasses, heq, hle⟩
    rw [h] at hpasses heq hle
    exact ⟨hpasses, heq, hle⟩
  · rintro ⟨hpasses, heq, hle⟩
    constructor <;> rw [h] <;> assumption

theorem Balanced.bind {x : ParserM α} {f : α → ParserM β} (hx : Balanced x s)
    (hf : ∀ a s', runFrom x s = (.ok a, s') → Balanced (f a) s') : Balanced (x >>= f) s := by
  rcases hrun : runFrom x s with ⟨e | a, t⟩
  · obtain ⟨hpasses, -, hle⟩ := (balanced_iff hrun).1 hx
    have hbind : runFrom (x >>= f) s = (.error e, t) := by rw [runFrom_bind, hrun]
    exact (balanced_iff hbind).2 ⟨hpasses, nofun, hle⟩
  · obtain ⟨hpasses, heq, -⟩ := (balanced_iff hrun).1 hx
    have hdepth : t.depth = s.depth := heq a rfl
    have hbind : runFrom (x >>= f) s = runFrom (f a) t := runFrom_bind_of_ok hrun f
    obtain ⟨hpasses', heq', hle'⟩ := hf a t hrun
    refine (balanced_iff hbind).2 ⟨hpasses.trans hpasses', fun b hb => ?_, ?_⟩
    · exact (heq' b hb).trans hdepth
    · exact hdepth ▸ hle'

theorem balanced_nested (hinner : ∀ s, Balanced inner s) (h : s.rest.headD .eof ≠ .eof) :
    Balanced (nested inner) s := by
  have hdropped : s.Passes s.inside := .tail h rfl
  by_cases hlt : s.depth < maxNesting
  · rcases hrun : runFrom inner s.inside with ⟨e | e, t⟩
    · obtain ⟨hpasses, -, hle⟩ := (balanced_iff hrun).1 (hinner s.inside)
      have hnested : runFrom (nested inner) s = (.error e, t) := by
        rw [runFrom_nested, if_pos hlt, hrun]
      refine (balanced_iff hnested).2 ⟨hdropped.trans hpasses, nofun, ?_⟩
      exact (Nat.le_succ s.depth).trans hle
    · obtain ⟨hpasses, heq, -⟩ := (balanced_iff hrun).1 (hinner s.inside)
      have hnested : runFrom (nested inner) s = (.ok e, { t with depth := t.depth - 1 }) := by
        rw [runFrom_nested, if_pos hlt, hrun]
      -- the level that is closed is the one that was opened
      have hdepth : t.depth = s.depth + 1 := heq e rfl
      refine (balanced_iff hnested).2 ⟨(hdropped.trans hpasses).congr rfl rfl, fun _ _ => ?_, ?_⟩
      · dsimp only
        omega
      · dsimp only
        omega
  · have hnested : runFrom (nested inner) s = (.error .nestedTooDeep, s.inside) := by
      rw [runFrom_nested, if_neg hlt]
    exact (balanced_iff hnested).2 ⟨hdropped, nofun, Nat.le_succ s.depth⟩

/-- **Every step is balanced.** -/
theorem balanced_stepwise : Stepwise @Balanced where
  pure _ s := ⟨.refl s, fun _ _ => rfl, le_refl _⟩
  throw _ s := ⟨.refl s, nofun, le_refl _⟩
  bind := Balanced.bind
  peek_bind := by
    intro β f s hf
    have hrun : runFrom (peek >>= f) s = runFrom (f (s.rest.headD .eof)) s := rfl
    exact (balanced_iff hrun).2 ⟨hf.passes, hf.depth_eq, hf.depth_le⟩
  advance h := ⟨.tail h rfl, fun _ _ => rfl, le_refl _⟩
  countOperator s := by
    refine (balanced_iff runFrom_countOperator).2 ⟨?_, fun _ _ => rfl, le_refl _⟩
    exact (ParserState.Passes.refl s).congr rfl rfl
  nested := balanced_nested

end Steps

/-! ## Levels are there to be closed -/

section Levels

variable {s : ParserState} {inner : ParserM Expr} {v : Variable}
variable (fault : ParserM Unit)

theorem runFrom_leaveOr (h : s.depth ≠ 0) : runFrom (leaveOr fault) s = runFrom leave s := by
  show runFrom (if s.depth = 0 then fault else leave) s = _
  rw [if_neg h]

/-- **The level that is closed behind a balanced parser is the one that was opened.** -/
theorem nestedOr_eq (hinner : ∀ s, Balanced inner s) : nestedOr fault inner = nested inner := by
  refine funext fun s => ?_
  show runFrom (nestedOr fault inner) s = runFrom (nested inner) s
  refine runFrom_bind_congr fun _ s₁ _ => runFrom_bind_congr fun _ s₂ henter => ?_
  refine runFrom_bind_congr fun e s₃ hread => ?_
  have hopen : s₂.depth = s₁.depth + 1 := by
    rw [runFrom_enter] at henter
    exact (congrArg (·.2.depth) henter).symm
  have hkept : s₃.depth = s₂.depth := ((balanced_iff hread).1 (hinner s₂)).2.1 e rfl
  rw [runFrom_bind, runFrom_bind, runFrom_leaveOr fault (by omega)]

theorem operandWithOr_eq (hinner : ∀ s, Balanced inner s) :
    operandWithOr fault v inner = operandWith v inner := by
  refine funext fun s => ?_
  show runFrom (operandWithOr fault v inner) s = runFrom (operandWith v inner) s
  rw [operandWithOr, runFrom_peek_bind]
  cases hnext : s.rest.headD .eof with
  | minus | plus =>
    rw [operandWith, runFrom_peek_bind, hnext]
    simp only [nestedOr_eq fault hinner]
  | openParen =>
    rw [operandWith, runFrom_peek_bind, hnext]
    simp only [nestedOr_eq fault (balanced_stepwise.expression hinner)]
  | _ => rfl

theorem operandOr_eq (levels : Nat) : operandOr fault v levels = operand v levels := by
  induction levels with
  | zero => exact operandWithOr_eq fault (balanced_stepwise.throw _)
  | succ levels ih =>
    rw [operandOr, ih, operandWithOr_eq fault (balanced_stepwise.operand levels)]
    rfl

/-- **No call closes a level where none is open**: what would happen there makes no difference. -/
theorem wholeOr_eq : wholeOr fault v = whole v := by
  rw [wholeOr, operandOr_eq]
  rfl

end Levels

/-! ## Calls -/

namespace ParserState

variable {v : Variable} {s : ParserState} {e : Expr} {j k n : Nat}

theorem after_add (j k : Nat) (s : ParserState) : s.after v (j + k) = (s.after v j).after v k := by
  induction j generalizing s with
  | zero => rw [Nat.zero_add, after]
  | succ j ih => rw [Nat.succ_add, after, after, ih]

theorem after_succ (n : Nat) (s : ParserState) :
    s.after v (n + 1) = ((s.after v n).parse v).2 :=
  after_add n 1 s

/-- The outcomes of the calls, as they come one after the other. -/
theorem calls_eq_map (n : Nat) (s : ParserState) :
    s.calls v n = (List.range n).map (outcome v · s) := by
  induction n generalizing s with
  | zero => rfl
  | succ n ih =>
    rw [calls, ih, List.range_succ_eq_map, List.map_cons, List.map_map]
    rfl

/-- One call is balanced. -/
theorem balanced_call (n : Nat) (s : ParserState) :
    (s.after v n).Passes (s.after v (n + 1)) ∧
      (∀ e, s.outcome v n = .ok e → (s.after v (n + 1)).depth = (s.after v n).depth) ∧
      (s.after v n).depth ≤ (s.after v (n + 1)).depth := by
  have hrun : runFrom (whole v) (s.after v n) = (s.outcome v n, ((s.after v n).parse v).2) := rfl
  rw [after_succ]
  exact (balanced_iff hrun).1 (balanced_stepwise.whole _)

/-- **The parser only goes forward**, and never behind an end. The induction is on the calls in
between. -/
theorem passes_after (h : j ≤ k) : (s.after v j).Passes (s.after v k) := by
  induction h with
  | refl => exact .refl _
  | step _ ih => exact ih.trans (balanced_call _ s).1

/-- **A parser succeeds where the tokens before the next end are a sum** for which the limits leave
room, and with the tree of that sum. -/
theorem parse_eq_ok_iff_derivation : (s.parse v).1 = .ok e ↔ ∃ d : Derivation .sum,
    d.tokens v = s.rest.takeWhile (· ≠ .eof) ∧ d.nesting ≤ maxNesting - s.depth ∧
      d.operators ≤ maxOperators - s.operators ∧ d.tree = e := by
  constructor
  · intro h
    obtain ⟨d, htree, hcons, hend⟩ := parse_eq_ok_iff.1 (Prod.ext h rfl :
      s.parse v = (.ok e, (s.parse v).2))
    refine ⟨d, ?_, hcons.nesting_le, hcons.operators_le, htree⟩
    have hrest : s.rest = d.tokens v ++ _ := hcons.rest
    rw [hrest, takeWhile_append_of_headD (d.eof_notMem_tokens v) hend]
  · rintro ⟨d, htokens, hnesting, hoperators, htree⟩
    have hcons : Consumes s (d.span v)
        ⟨s.rest.dropWhile (· ≠ .eof), s.depth, s.operators + d.operators⟩ := by
      refine ⟨?_, rfl, rfl, hnesting, hoperators⟩
      show s.rest = d.tokens v ++ _
      rw [htokens, List.takeWhile_append_dropWhile]
    exact congrArg Prod.fst (parse_eq_ok_iff.2 ⟨d, htree, hcons, headD_dropWhile s.rest⟩)

/-- At the end there is nothing to read, and the parser stays as it is. -/
theorem parse_of_ended (h : s.rest.headD .eof = .eof) : s.parse v = (.error .empty, s) := by
  show runFrom (whole v) s = _
  rw [whole, runFrom_peek_bind, if_pos h]
  rfl

theorem after_of_ended (h : s.rest.headD .eof = .eof) : s.after v n = s := by
  induction n with
  | zero => rfl
  | succ n ih => rw [after_succ, ih, parse_of_ended h]

/-- **Behind a success there is nothing to read**, whenever the parser is asked again. -/
theorem outcome_of_success (h : s.outcome v j = .ok e) (hk : j < k) :
    s.outcome v k = .error .empty := by
  obtain ⟨n, rfl⟩ : ∃ n, k = (j + 1) + n := ⟨k - (j + 1), by omega⟩
  have hended : (s.after v (j + 1)).rest.headD .eof = .eof := by
    rw [after_succ]
    obtain ⟨-, -, -, hend⟩ := parse_eq_ok_iff.1 (Prod.ext h rfl :
      (s.after v j).parse v = (.ok e, ((s.after v j).parse v).2))
    exact hend
  rw [outcome, after_add, after_of_ended hended, parse_of_ended hended]

end ParserState

/-- **A parser that is asked again and again stays consistent**, whatever it has been through. No
level is closed where none is open. From call to call it goes forward and never behind an end; a
success leaves as many levels open as before, a failure no fewer. A call succeeds exactly where the
tokens up to the next end are an expression within what the limits have left, with its tree. And
behind a success every call finds an empty expression, so there is one success at most. -/
theorem reused_parser_stays_consistent (v : Variable) (s : ParserState) :
    (∀ fault, wholeOr fault v = whole v) ∧
      (∀ j k, j ≤ k → (s.after v j).Passes (s.after v k)) ∧
      (∀ n, (∀ e, s.outcome v n = .ok e → (s.after v (n + 1)).depth = (s.after v n).depth) ∧
        (s.after v n).depth ≤ (s.after v (n + 1)).depth) ∧
      (∀ n e, s.outcome v n = .ok e ↔ ∃ d : Derivation .sum,
        d.tokens v = (s.after v n).rest.takeWhile (· ≠ .eof) ∧
          d.nesting ≤ maxNesting - (s.after v n).depth ∧
          d.operators ≤ maxOperators - (s.after v n).operators ∧ d.tree = e) ∧
      (∀ j k e, s.outcome v j = .ok e → j < k → s.outcome v k = .error .empty) ∧
      ∀ j k e e', s.outcome v j = .ok e → s.outcome v k = .ok e' → j = k := by
  refine ⟨fun fault => wholeOr_eq fault, fun j k => ParserState.passes_after, fun n => ?_,
    fun n e => ParserState.parse_eq_ok_iff_derivation,
    fun j k e => ParserState.outcome_of_success, fun j k e e' h h' => ?_⟩
  · exact (ParserState.balanced_call n s).2
  · rcases Nat.lt_trichotomy j k with hlt | heq | hlt
    · cases h'.symm.trans (ParserState.outcome_of_success h hlt)
    · exact heq
    · cases h.symm.trans (ParserState.outcome_of_success h' hlt)

/-- Two tokens are left when the first call fails, and a sign is open. The second call reads one of
them and leaves the sign open; the third finds nothing. -/
theorem reused_parser_stays_consistent_of_open_sign :
    let s : ParserState := .ofTokens [.minus, .openParen, .int 1, .int 2, .eof]
    s.calls .arg 3 = [.error (.expectedClose (.int 2)), .ok (.literal 2), .error .empty] ∧
      (s.after .arg 1).depth = 1 ∧ (s.after .arg 2).depth = 1 := by
  intro s
  obtain ⟨-, -, hdepth, hsuccess, hlater, -⟩ := reused_parser_stays_consistent .arg s
  have hopen : (s.after .arg 1).depth = 1 := by decide
  have hfirst : s.outcome .arg 0 = .error (.expectedClose (.int 2)) := by decide
  have hsecond : s.outcome .arg 1 = .ok (.literal 2) :=
    (hsuccess 1 _).2 ⟨.term (.single (.literal 2)), by decide⟩
  have hthird : s.outcome .arg 2 = .error .empty := hlater 1 2 _ hsecond (by decide)
  refine ⟨?_, hopen, ((hdepth 1).1 _ hsecond).trans hopen⟩
  rw [ParserState.calls_eq_map]
  show [s.outcome .arg 0, s.outcome .arg 1, s.outcome .arg 2] = _
  rw [hfirst, hsecond, hthird]

end OperandCodec
