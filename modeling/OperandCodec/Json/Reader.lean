import OperandCodec.Json.Error
import OperandCodec.Json.Rest
import OperandCodec.Text.Numeral
/-!
# Readers

A reader takes a value off the front of a text and says what is left, which
is less than there was; that is what ends the loops over elements and
entries. This file has the parts that values are made of: space, keywords,
strings, the slots of an array and the entries of an object. The entries
are read into an accumulator by a visitor, which is asked for the reader of
each value when its key is known: the same loop collects all fields of a
value and fills the known fields of a document.
-/

namespace OperandCodec
namespace Json

/-- The outcome of reading at the front of `s`. -/
abbrev Outcome (α : Type) (s : List Char) := Except JsonError (α × Rest s)

/-- A reader of values. -/
abbrev Reader (α : Type) := (s : List Char) → Outcome α s

/-- An outcome, seen from a text that is not shorter. -/
def Outcome.widen {α : Type} {t : List Char} (o : Outcome α t) {s : List Char}
    (h : t.length ≤ s.length) : Outcome α s :=
  o.map fun (x, r) => (x, r.widen h)

/-- Whether a character may stand between tokens. -/
def isSpace (c : Char) : Bool :=
  c == ' ' || c == '\n' || c == '\t' || c == '\r'

/-- The text behind the space at its front. -/
def skipSpace (s : List Char) : Tail s :=
  .dropWhile isSpace s

/-- Reads the rest of a keyword. -/
def keyword : (word s : List Char) → Except JsonError (Tail s)
  | [], s => .ok (.all s)
  | _ :: _, [] => .error .eofValue
  | c :: cs, d :: ds =>
    if c = d then (keyword cs ds).map (·.cons d)
    else .error .expectedKeyword

/-! ## Strings -/

/-- Reads four hexadecimal digits. Where fewer than four bytes are left the string has no end. -/
def hex4 : Reader Nat
  | a :: b :: c :: d :: r =>
    if [a, b, c, d].all (Text.isDigitOf 16) then
      .ok (Text.ofDigits 16 [a, b, c, d], ⟨r, by simp only [List.length_cons]; omega⟩)
    else .error .invalidEscape
  | s => .error (if (String.ofList s).utf8ByteSize < 4 then .eofString else .invalidEscape)

/-- Whether a code unit is the first half of a pair. -/
def isLeading (n : Nat) : Bool :=
  0xD800 ≤ n && n ≤ 0xDBFF

/-- Whether a code unit is the second half of a pair. -/
def isTrailing (n : Nat) : Bool :=
  0xDC00 ≤ n && n ≤ 0xDFFF

/-- Reads the second half of a pair, with its backslash and its `u`. -/
def trailing : Reader Nat
  | [] => .error .eofString
  | '\\' :: [] => .error .eofString
  | '\\' :: 'u' :: s => do
    let (n, r) ← hex4 s
    if isTrailing n then .ok (n, r.widen (by simp only [List.length_cons]; omega))
    else .error .loneSurrogate
  | _ => .error .unfinishedSurrogate

/-- Reads a character given by its code unit, or by a pair of them. -/
def unicodeEscape : Reader Char := fun s => do
  let (n, r) ← hex4 s
  if isTrailing n then .error .loneSurrogate
  else if isLeading n then do
    let (m, r') ← trailing r.1
    .ok (Char.ofNat ((n - 0xD800) * 0x400 + (m - 0xDC00) + 0x10000), r.andThen r'.toTail)
  else .ok (Char.ofNat n, r)

/-- The character that a letter stands for behind a backslash. -/
def escaped? : Char → Option Char
  | '"' => some '"'
  | '\\' => some '\\'
  | '/' => some '/'
  | 'b' => some '\x08'
  | 'f' => some '\x0c'
  | 'n' => some '\n'
  | 'r' => some '\r'
  | 't' => some '\t'
  | _ => none

/-- Reads what stands behind a backslash. -/
def escape : Reader Char
  | [] => .error .eofString
  | c :: cs =>
    if c = 'u' then (unicodeEscape cs).map fun (x, r) => (x, r.cons c)
    else match escaped? c with
      | some x => .ok (x, (Tail.all cs).behind c)
      | none => .error .invalidEscape

/-- The characters of a string up to its closing quote, whose escapes `esc` reads. -/
def characters (esc : Reader Char) : Reader (List Char)
  | [] => .error .eofString
  | c :: cs =>
    if c = '"' then .ok ([], (Tail.all cs).behind c)
    else if c = '\\' then do
      let (x, r) ← esc cs
      have := r.2
      let (xs, r') ← characters esc r.1
      .ok (x :: xs, r'.widen (by simp only [List.length_cons]; omega))
    else if c.toNat < 0x20 then .error .controlCharacter
    else do
      let (xs, r) ← characters esc cs
      .ok (c :: xs, r.cons c)
termination_by s => s.length

/-- Reads a string behind its opening quote. -/
def stringBody : Reader String := fun s =>
  (characters escape s).map fun (cs, r) => (String.ofList cs, r)

/-! ## Arrays -/

/-- What stands where an element of an array may begin. -/
inductive Slot (s : List Char) where
  | closed (r : Rest s)
  | element (r : Tail s)

/-- Looks for the first element, behind the opening bracket. -/
def firstSlot (s : List Char) : Except JsonError (Slot s) :=
  match skipSpace s with
  | ⟨[], _⟩ => .error .eofList
  | ⟨']' :: r, h⟩ => .ok (.closed ⟨r, h⟩)
  | t => .ok (.element t)

/-- Looks for another element, behind an element. -/
def nextSlot (s : List Char) : Except JsonError (Slot s) :=
  match skipSpace s with
  | ⟨[], _⟩ => .error .eofList
  | ⟨']' :: r, h⟩ => .ok (.closed ⟨r, h⟩)
  | ⟨',' :: u, h⟩ =>
    match skipSpace u with
    | ⟨[], _⟩ => .error .eofValue
    | ⟨']' :: _, _⟩ => .error .trailingComma
    | t => .ok (.element ⟨t.1, by have := t.2; simp only [List.length_cons] at h; omega⟩)
  | _ => .error .expectedCommaOrBracket

/-- The elements behind an element. -/
def moreElements {α : Type} (element : Reader α) (s : List Char) : Outcome (List α) s := do
  match ← nextSlot s with
  | .closed r => .ok ([], r)
  | .element t =>
    let (x, r) ← element t.1
    have := r.2
    have := t.2
    let (xs, r') ← moreElements element r.1
    .ok (x :: xs, (t.andThen r.toTail).rest r')
termination_by s.length

/-- The elements of an array, behind its opening bracket. -/
def elements {α : Type} (element : Reader α) : Reader (List α) := fun s => do
  match ← firstSlot s with
  | .closed r => .ok ([], r)
  | .element t =>
    let (x, r) ← element t.1
    let (xs, r') ← moreElements element r.1
    .ok (x :: xs, (t.andThen r.toTail).rest r')

/-! ## Objects -/

/-- Chooses, when a key is known, the reader of its value; the value goes into the accumulator. -/
abbrev Visitor (β : Type) := β → String → Except JsonError (Reader β)

/-- The value behind a key, with its colon. -/
def entryValue {β : Type} (read : Reader β) : Reader β := fun s =>
  match skipSpace s with
  | ⟨[], _⟩ => .error .eofObject
  | ⟨':' :: u, h⟩ => (read u).widen (Nat.le_of_lt h)
  | _ => .error .expectedColon

/-- An entry, behind the opening quote of its key. -/
def entry {β : Type} (visit : Visitor β) (acc : β) : Reader β := fun s => do
  let (key, r) ← stringBody s
  let read ← visit acc key
  (entryValue read r.1).map fun (x, t) => (x, r.andThen t.toTail)

/-- What stands where an entry of an object may begin: its end, or the opening quote of a key. -/
inductive EntrySlot (s : List Char) where
  | closed (r : Rest s)
  | key (r : Rest s)

/-- Looks for the first entry, behind the opening brace. -/
def firstEntry (s : List Char) : Except JsonError (EntrySlot s) :=
  match skipSpace s with
  | ⟨[], _⟩ => .error .eofObject
  | ⟨'}' :: r, h⟩ => .ok (.closed ⟨r, h⟩)
  | ⟨'"' :: r, h⟩ => .ok (.key ⟨r, h⟩)
  | _ => .error .keyNotString

/-- Looks for another entry, behind an entry. -/
def nextEntry (s : List Char) : Except JsonError (EntrySlot s) :=
  match skipSpace s with
  | ⟨[], _⟩ => .error .eofObject
  | ⟨'}' :: r, h⟩ => .ok (.closed ⟨r, h⟩)
  | ⟨',' :: u, h⟩ =>
    match skipSpace u with
    | ⟨[], _⟩ => .error .eofValue
    | ⟨'"' :: r, h'⟩ => .ok (.key ⟨r, Nat.lt_trans h' h⟩)
    | ⟨'}' :: _, _⟩ => .error .trailingComma
    | _ => .error .keyNotString
  | _ => .error .expectedCommaOrBrace

/-- The entries behind an entry. -/
def moreEntries {β : Type} (visit : Visitor β) (acc : β) (s : List Char) : Outcome β s := do
  match ← nextEntry s with
  | .closed r => .ok (acc, r)
  | .key t =>
    let (acc', r) ← entry visit acc t.1
    have := r.2
    have := t.2
    let (x, r') ← moreEntries visit acc' r.1
    .ok (x, t.andThen (r.andThen r'.toTail).toTail)
termination_by s.length

/-- The entries of an object, behind its opening brace. -/
def entries {β : Type} (visit : Visitor β) (acc : β) : Reader β := fun s => do
  match ← firstEntry s with
  | .closed r => .ok (acc, r)
  | .key t =>
    let (acc', r) ← entry visit acc t.1
    let (x, r') ← moreEntries visit acc' r.1
    .ok (x, t.andThen (r.andThen r'.toTail).toTail)

end Json
end OperandCodec
