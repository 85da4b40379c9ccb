import OperandCodec.Record.Encode
import OperandCodec.Text.Blank
import OperandCodec.Text.Numeral
/-!
# Command lines

What a command line asks for. Options may stand anywhere among the
positional arguments and are taken from left to right, so a request for
help wins over mistakes behind it. An argument that begins with a hyphen is
an option unless it is a number; where an option wants a value, the next
argument is its value whatever it looks like.
-/

namespace OperandCodec
namespace CommandLine

/-- A mistake in a command line. -/
inductive UsageError where
  | missingConfigFile
  | missingInputCount
  | invalidInputCount (text : String)
  | unknownOption (text : String)
  | missingCommand
  | missingTableFile
  | inputsWithoutBuild
  | expectedPair (text : String)
  | invalidPairValue (name value : String)
  | invalidWord (text : String)
  | wrongArgumentCount (command : String)
  | unknownCommand (command : String)
deriving DecidableEq, Repr

/-- The wording of a mistake. -/
def UsageError.message : UsageError → String
  | missingConfigFile => "Missing file after --config"
  | missingInputCount => "Missing count after --inputs"
  | invalidInputCount text => s!"Invalid input count: {text}"
  | unknownOption text => s!"Unknown option: {text}"
  | missingCommand => "Missing command"
  | missingTableFile => "Missing metadata file"
  | inputsWithoutBuild => "--inputs only applies to the build command"
  | expectedPair text => s!"Expected NAME=VALUE, got '{text}'"
  | invalidPairValue name value => s!"Invalid value for '{name}': {value}"
  | invalidWord text => s!"Invalid operand word: {text}"
  | wrongArgumentCount command => s!"Wrong number of arguments for '{command}'"
  | unknownCommand command => s!"Unknown command: {command}"

/-! ## Values on a command line -/

/-- A value, written with an optional sign. -/
def readValue? (s : List Char) : Option Value :=
  (Text.readSigned? s).bind Value.ofInt?

/-- An operand word, written in decimal or in hexadecimal behind `0x`. -/
def readWord (text : String) : Except UsageError Word :=
  let n := match text.toList with
    | '0' :: 'x' :: s => Text.readUnsigned? 16 0xFFFF s
    | '0' :: 'X' :: s => Text.readUnsigned? 16 0xFFFF s
    | s => Text.readUnsigned? 10 0xFFFF s
  match n with
  | some n => .ok (BitVec.ofNat 16 n)
  | none => .error (.invalidWord text)

/-- A name and a value with an equals sign between them, the first one if there are more. -/
def readPair (text : String) : Except UsageError (String × Value) :=
  let s := text.toList
  let name := s.takeWhile (· != '=')
  match s.dropWhile (· != '=') with
  | [] => .error (.expectedPair text)
  | _ :: value =>
    match readValue? (Text.trim value) with
    | some v => .ok (String.ofList (Text.trim name), v)
    | none => .error (.invalidPairValue (String.ofList name) (String.ofList value))

/-! ## Options -/

/-- What the options before some argument have said, and the positional arguments so far. -/
structure Scan where
  verbosity : Nat
  config : Option String
  inputs : Option Nat
  positional : List String
deriving DecidableEq, Repr

/-- The scan before the first argument. -/
def Scan.empty : Scan :=
  ⟨0, none, none, []⟩

/-- The largest verbosity. -/
def maxVerbosity : Nat := 255

/-- Raises the verbosity up to its largest value. -/
def Scan.louder (scan : Scan) (n : Nat) : Scan :=
  { scan with verbosity := min (scan.verbosity + n) maxVerbosity }

/-- The steps by which a cluster of verbosity flags raises the verbosity, if the argument is one. The
steps of one cluster are counted modulo 256. -/
def cluster? (arg : String) : Option Nat :=
  match arg.toList with
  | '-' :: letters =>
    if 2 ≤ letters.length ∧ letters.all (· == 'v') then some (letters.length % 256) else none
  | _ => none

/-- Whether an argument looks like an option: it begins with a hyphen and is no number. -/
def looksLikeOption (arg : String) : Bool :=
  arg.toList.head? == some '-' && (readValue? arg.toList).isNone

/-- Why a scan ends before the last argument. -/
inductive Stop where
  | help
  | version
  | mistake (e : UsageError)
deriving DecidableEq, Repr

/-- Scans arguments from left to right. -/
def scanFrom (scan : Scan) : List String → Except Stop Scan
  | [] => .ok scan
  | "--config" :: args =>
    match args with
    | [] => .error (.mistake .missingConfigFile)
    | file :: args => scanFrom { scan with config := some file } args
  | "--inputs" :: args =>
    match args with
    | [] => .error (.mistake .missingInputCount)
    | text :: args =>
      match Text.readUnsigned? 10 Text.maxCount text.toList with
      | some n => scanFrom { scan with inputs := some n } args
      | none => .error (.mistake (.invalidInputCount text))
  | arg :: args =>
    if arg = "-h" ∨ arg = "--help" then .error .help
    else if arg = "-V" ∨ arg = "--version" then .error .version
    else if arg = "-v" ∨ arg = "--verbose" then scanFrom (scan.louder 1) args
    else match cluster? arg with
      | some n => scanFrom (scan.louder n) args
      | none =>
        if looksLikeOption arg then .error (.mistake (.unknownOption arg))
        else scanFrom { scan with positional := scan.positional ++ [arg] } args

/-! ## Commands -/

/-- What is to be done with a table. -/
inductive Command where
  | build (opcode : String) (args : List (String × Value)) (inputs : Nat)
  | read (opcode : String) (word : Word)
  | render (opcode : String) (word : Word)
  | list
deriving DecidableEq, Repr

/-- A command line without mistakes. -/
structure Options where
  verbosity : Nat
  config : Option String
  table : String
  command : Command
deriving DecidableEq, Repr

/-- The command of a name and the arguments behind the table's file. -/
def Command.ofArgs (name : String) (inputs : Option Nat) (args : List String) :
    Except UsageError Command :=
  if name = "build" then
    match args with
    | opcode :: pairs => do return .build opcode (← pairs.mapM readPair) (inputs.getD 0)
    | _ => .error (.wrongArgumentCount name)
  else if name = "read" then
    match args with
    | [opcode, word] => do return .read opcode (← readWord word)
    | _ => .error (.wrongArgumentCount name)
  else if name = "render" then
    match args with
    | [opcode, word] => do return .render opcode (← readWord word)
    | _ => .error (.wrongArgumentCount name)
  else if name = "list" then
    match args with
    | [] => .ok .list
    | _ => .error (.wrongArgumentCount name)
  else .error (.unknownCommand name)

/-- The options that a scan of all arguments amounts to. -/
def Options.ofScan (scan : Scan) : Except UsageError Options :=
  match scan.positional with
  | [] => .error .missingCommand
  | [_] => .error .missingTableFile
  | name :: table :: args =>
    if scan.inputs.isSome ∧ name ≠ "build" then .error .inputsWithoutBuild
    else do
      let command ← Command.ofArgs name scan.inputs args
      return ⟨scan.verbosity, scan.config, table, command⟩

/-- The options of a command line. -/
def Options.ofArgs (args : List String) : Except Stop Options := do
  let scan ← scanFrom .empty args
  (ofScan scan).mapError .mistake

end CommandLine
end OperandCodec
