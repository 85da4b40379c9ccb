import OperandCodec.Files
import OperandCodec.Settings.Basic
/-!
# Settings files

A settings file is a TOML document whose only keys are the two sizes, each
at most once. Lines are blank, a comment, or a key and an integer; a key may
stand in either kind of quotes, and an integer may be written in any of
TOML's ways. Every other document has a key or a value of the wrong type
and is no settings file, so the rest of the language needs no reading.
-/

namespace OperandCodec
namespace SettingsFile

/-- The keys of a settings file. -/
inductive Key where
  | treeCacheSize
  | inversionCacheSize
deriving DecidableEq, Repr

/-- The key of a name. -/
def Key.ofName? (name : List Char) : Option Key :=
  if name = "parse_cache_size".toList then some .treeCacheSize
  else if name = "inversion_cache_size".toList then some .inversionCacheSize
  else none

/-- Whether a character is space within a line. -/
def isSpace (c : Char) : Bool :=
  c == ' ' || c == '\t'

/-- Whether a character may stand in a comment. -/
def isCommentChar (c : Char) : Bool :=
  c == '\t' || (0x20 ≤ c.toNat && c.toNat != 0x7F)

/-- Whether a character may stand in a bare key. -/
def isBareChar (c : Char) : Bool :=
  c.isAlphanum || c == '_' || c == '-'

/-- Whether nothing but space and a comment is left of a line. -/
def isLineEnd (s : List Char) : Bool :=
  match s.dropWhile isSpace with
  | [] => true
  | '#' :: comment => comment.all isCommentChar
  | _ => false

/-- The character with a code point in hexadecimal. -/
def charOfHex? (digits : List Char) : Option Char := do
  let n ← Text.readDigits? 16 digits
  if n.isValidChar then some (Char.ofNat n) else none

/-- Reads a key in double quotes behind the first of them. The only escapes that a known key can be
written with give a code point. -/
def basicKey : List Char → Option (List Char × List Char)
  | '"' :: s => some ([], s)
  | '\\' :: 'u' :: a :: b :: c :: d :: s => do
    let x ← charOfHex? [a, b, c, d]
    let (name, r) ← basicKey s
    return (x :: name, r)
  | '\\' :: 'U' :: a :: b :: c :: d :: e :: f :: g :: h :: s => do
    let x ← charOfHex? [a, b, c, d, e, f, g, h]
    let (name, r) ← basicKey s
    return (x :: name, r)
  | '\\' :: _ => none
  | c :: s => do
    let (name, r) ← basicKey s
    return (c :: name, r)
  | [] => none

/-- Reads a key, and says what is behind it. -/
def readKey (s : List Char) : Option (Key × List Char) := do
  let (name, r) ← match s with
    | '"' :: s => basicKey s
    | '\'' :: s =>
      let name := s.takeWhile (· != '\'')
      if name.length < s.length then some (name, s.drop (name.length + 1)) else none
    | s => some (s.takeWhile isBareChar, s.dropWhile isBareChar)
  return (← Key.ofName? name, r)

/-- Whether the digits of a run are separated by single underscores, if at all. -/
def isGrouped : List Char → Bool
  | [] => false
  | [c] => c != '_'
  | c :: '_' :: cs => c != '_' && isGrouped cs
  | c :: cs => c != '_' && isGrouped cs

/-- Reads digits with underscores between them, and says what is behind them. -/
def readGrouped (base : Nat) (s : List Char) : Option (Nat × List Char) := do
  let run := s.takeWhile fun c => Text.isDigitOf base c || c == '_'
  if !isGrouped run then none
  let n := Text.ofDigits base (run.filter (· != '_'))
  if n ≤ 0x7FFFFFFFFFFFFFFF then some (n, s.drop run.length) else none

/-- Reads a decimal number, which has no leading zero. -/
def readDecimal (s : List Char) : Option (Nat × List Char) :=
  match s with
  | '0' :: s => some (0, s)
  | s => readGrouped 10 s

/-- Reads a number that can be a size, and says what is behind it. -/
def readSize (s : List Char) : Option (Nat × List Char) :=
  match s with
  | '0' :: 'x' :: s => readGrouped 16 s
  | '0' :: 'o' :: s => readGrouped 8 s
  | '0' :: 'b' :: s => readGrouped 2 s
  | '+' :: s => readDecimal s
  | '-' :: s => (readDecimal s).filter (·.1 = 0)
  | s => readDecimal s

/-- Reads a key and its size, which fill a line. -/
def readSetting (s : List Char) : Option (Key × Nat) := do
  let (key, s) ← readKey s
  match s.dropWhile isSpace with
  | '=' :: s =>
    let (n, s) ← readSize (s.dropWhile isSpace)
    if isLineEnd s then some (key, n) else none
  | _ => none

/-- The file with a size for a key that has none yet. -/
def insert? (file : SettingsFile) (key : Key) (n : Nat) : Option SettingsFile :=
  match key with
  | .treeCacheSize =>
    if file.treeCacheSize.isSome then none else some { file with treeCacheSize := n }
  | .inversionCacheSize =>
    if file.inversionCacheSize.isSome then none else some { file with inversionCacheSize := n }

/-- Reads one line into what the lines before it gave. -/
def readLine (file : SettingsFile) (line : List Char) : Option SettingsFile :=
  if isLineEnd line then some file
  else do
    let (key, n) ← readSetting (line.dropWhile isSpace)
    file.insert? key n

/-- A line without the carriage return that belongs to its end. -/
def chomp (line : List Char) : List Char :=
  if line.getLast? = some '\r' then line.dropLast else line

/-- The lines of a text. A line feed ends a line, with a carriage return before it or without. -/
def lines (s : List Char) : List (List Char) :=
  let parts := Text.pieces '\n' s
  parts.dropLast.map chomp ++ parts.getLast?.toList

/-- The settings in a text, if it is a settings file. It may begin with a byte order mark. -/
def ofText? (text : String) : Option SettingsFile :=
  let s := match text.toList with
    | '\uFEFF' :: s => s
    | s => s
  (lines s).foldlM readLine ⟨none, none⟩

end SettingsFile

/-- Why settings are not loaded. -/
inductive SettingsError where
  | unreadable (e : FileError)
  | malformed
deriving DecidableEq, Repr

/-- The wording of a settings error. -/
def SettingsError.message : SettingsError → String
  | unreadable e => s!"Failed to read config: {e.message}"
  | malformed => "Failed to parse config: expected lines KEY = SIZE with the keys " ++
      "parse_cache_size and inversion_cache_size"

namespace Settings

/-- The defaults with the sizes that a text gives. -/
def ofText (text : String) : Except SettingsError Settings :=
  match SettingsFile.ofText? text with
  | some file => .ok (defaults.withFile file)
  | none => .error .malformed

/-- The settings of an environment with the sizes that a file gives. -/
def ofFile (env : Environment) (content : Except FileError String) :
    Except SettingsError Settings :=
  match content with
  | .error e => .error (.unreadable e)
  | .ok text =>
    match SettingsFile.ofText? text with
    | some file => .ok ((ofEnvironment env).withFile file)
    | none => .error .malformed

end Settings
end OperandCodec
