import OperandCodec.Expr.Basic
import OperandCodec.Text.Blank
import OperandCodec.Text.Numeral
/-!
# Tokens

The words of a computation's source, and the scanner that reads them one at
a time. A scanner is the rest of a text together with the number of
characters before it. Every call of `Scanner.next` that does not find the
end consumes a character (`Scanner.next_length_lt`), errors included, so a
scanner goes on after an error and always reaches the end.
-/

namespace OperandCodec

/-- A token of the computation language. -/
inductive Token where
  | openParen
  | closeParen
  | plus
  | minus
  | star
  | slash
  | percent
  | ident (name : String)
  | int (n : Value)
  /-- The end of the source. -/
  | eof
deriving DecidableEq, Repr

/-- The token as a message names it. -/
def Token.text : Token → String
  | openParen => "("
  | closeParen => ")"
  | plus => "+"
  | minus => "-"
  | star => "*"
  | slash => "/"
  | percent => "%"
  | ident name => name
  | int n => n.text
  | eof => "end of input"

/-- What a scanner could not read; columns count characters from one. -/
inductive LexError where
  | unexpectedCharacter (c : Char) (column : Nat)
  | literalTooLarge (digits : String) (column : Nat)
deriving DecidableEq, Repr

/-- The wording of a scanner's error. -/
def LexError.message : LexError → String
  | unexpectedCharacter c column => s!"unexpected character '{c}' at column {column}"
  | literalTooLarge digits column =>
    s!"integer literal '{digits}' at column {column} is too large"

namespace Token

/-- The token that a single character stands for. -/
def ofChar? : Char → Option Token
  | '(' => some openParen
  | ')' => some closeParen
  | '+' => some plus
  | '-' => some minus
  | '*' => some star
  | '/' => some slash
  | '%' => some percent
  | _ => none

/-- Whether a character can start an identifier. -/
def isIdentStart (c : Char) : Bool :=
  c.isAlpha || c == '_'

/-- Whether a character can go on with an identifier. -/
def isIdentRest (c : Char) : Bool :=
  c.isAlphanum || c == '_'

end Token

/-- The rest of a source, and how many characters went before it. -/
structure Scanner where
  column : Nat
  rest : List Char
deriving DecidableEq, Repr

namespace Scanner

/-- The scanner at the start of a source. -/
def ofString (source : String) : Scanner :=
  ⟨0, source.toList⟩

/-- The longest run of characters in a class at the front. -/
def run (p : Char → Bool) (s : Scanner) : List Char :=
  s.rest.takeWhile p

/-- The scanner behind that run. -/
def skip (p : Char → Bool) (s : Scanner) : Scanner :=
  ⟨s.column + (s.run p).length, s.rest.dropWhile p⟩

/-- The token at the front of a scanner that has no blank there, and the scanner behind it. -/
def lexeme (s : Scanner) : Except LexError Token × Scanner :=
  match s.rest with
  | [] => (.ok .eof, s)
  | c :: cs =>
    if c.isDigit then
      let digits := s.run Char.isDigit
      let token := match Value.ofInt? (Text.ofDigits 10 digits) with
        | some n => .ok (.int n)
        | none => .error (.literalTooLarge (String.ofList digits) (s.column + 1))
      (token, s.skip Char.isDigit)
    else if Token.isIdentStart c then
      (.ok (.ident (String.ofList (s.run Token.isIdentRest))), s.skip Token.isIdentRest)
    else
      let token := match Token.ofChar? c with
        | some t => .ok t
        | none => .error (.unexpectedCharacter c (s.column + 1))
      (token, ⟨s.column + 1, cs⟩)

/-- The next token, and the scanner behind it. At the end of the source it is `eof` for good. -/
def next (s : Scanner) : Except LexError Token × Scanner :=
  (s.skip Text.isBlank).lexeme

/-! ## Progress -/

theorem length_dropWhile_le {α : Type} (p : α → Bool) (l : List α) :
    (l.dropWhile p).length ≤ l.length :=
  (List.dropWhile_sublist p).length_le

theorem length_skip_le (p : Char → Bool) (s : Scanner) :
    (s.skip p).rest.length ≤ s.rest.length :=
  length_dropWhile_le p s.rest

/-- A skipped run that starts at the front is not empty. -/
theorem length_skip_lt {p : Char → Bool} {s : Scanner} {c : Char} {cs : List Char}
    (hs : s.rest = c :: cs) (hc : p c) : (s.skip p).rest.length < s.rest.length := by
  have := length_dropWhile_le p cs
  simp [skip, hs, hc]
  omega

theorem lexeme_length_lt {s : Scanner} (h : s.lexeme.1 ≠ .ok .eof) :
    s.lexeme.2.rest.length < s.rest.length := by
  revert h
  unfold lexeme
  split
  · simp
  · rename_i c cs hs
    split
    · rename_i hc
      exact fun _ => length_skip_lt hs hc
    · split
      · rename_i hc
        refine fun _ => length_skip_lt hs ?_
        simp only [Token.isIdentStart, Token.isIdentRest, Char.isAlphanum, Bool.or_eq_true] at hc ⊢
        exact hc.elim (fun h => .inl (.inl h)) .inr
      · simp [hs]

/-- **A call that does not find the end consumes a character.** -/
theorem next_length_lt {s : Scanner} (h : s.next.1 ≠ .ok .eof) :
    s.next.2.rest.length < s.rest.length :=
  Nat.lt_of_lt_of_le (lexeme_length_lt h) (length_skip_le _ s)

/-- All tokens up to the end, which is the last of them; the first error stops the reading. -/
def tokens (s : Scanner) : Except LexError (List Token) :=
  match h : s.next.1 with
  | .error e => .error e
  | .ok t =>
    if ht : t = .eof then .ok [.eof]
    else
      have := next_length_lt (s := s) (by simp [h, ht])
      (s.next.2.tokens).map (t :: ·)
termination_by s.rest.length

/-- The outcomes of the next `n` calls. -/
def calls : Nat → Scanner → List (Except LexError Token)
  | 0, _ => []
  | n + 1, s => s.next.1 :: calls n s.next.2

end Scanner

/-- The tokens of a source. -/
def Token.ofSource (source : String) : Except LexError (List Token) :=
  (Scanner.ofString source).tokens

end OperandCodec
