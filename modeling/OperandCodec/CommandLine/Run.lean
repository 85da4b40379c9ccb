import OperandCodec.CommandLine.Options
import OperandCodec.Session.Basic
import OperandCodec.Record.Decode
import OperandCodec.Settings.File
/-!
# Running a command line

What a command line prints and the status it ends with, given the contents
of the files it names. Results go to the standard output; mistakes in the
command line are answered with the usage and status two, everything else
that fails with status one.
-/

namespace OperandCodec
namespace CommandLine

/-- The name and the version of the program. -/
def versionLine : String := "opmeta 0.1.0"

/-- The usage of the program. -/
def usage : String := "opmeta v0.1.0

USAGE:
    opmeta [OPTIONS] <COMMAND> <META> [ARGS...]

COMMANDS:
    build <META> <OPCODE> [NAME=VALUE ...] [--inputs N]
                         Encode argument values into an operand word
    read <META> <OPCODE> <WORD>
                         Decode an operand word
    render <META> <OPCODE> <WORD>
                         Print an operand as name<v1 v2 ...>
    list <META>          List opcodes and their operand layouts

OPTIONS:
    -h, --help           Print this help message
    -V, --version        Print version information
    -v, --verbose        Raise log verbosity (repeatable)
    --config <FILE>      Load engine settings from a TOML file

ARGUMENTS:
    <META>               Opcode metadata JSON (one object or an array)
    <WORD>               Operand word, decimal or 0x-prefixed hex

EXAMPLES:
    opmeta build ops.json read-memory index=3 offset=10
    opmeta read ops.json read-memory 0x0503
    opmeta -vv list ops.json
"

/-- What a run leaves behind. -/
structure Exit where
  status : Nat
  out : String
  err : String
deriving DecidableEq, Repr

/-- A run that ends before anything is loaded. -/
def Stop.exit : Stop → Exit
  | help => ⟨0, "", usage⟩
  | version => ⟨0, versionLine ++ "\n", ""⟩
  | mistake e => ⟨2, "", s!"Error: {e.message}\n\n" ++ usage⟩

/-- A word in hexadecimal and in decimal. -/
def wordText (w : Word) : String :=
  let digits := Nat.toDigits 16 w.toNat
  "0x" ++ String.ofList (List.replicate (4 - digits.length) '0' ++ digits) ++ s!" ({w.toNat})"

/-- A decoded word on several lines. -/
def decodedText (d : Decoded) : String :=
  String.join (d.arguments.map fun (name, v) => s!"{name} = {v.text}\n") ++
    s!"inputs: {d.inputs.text}\noutputs: {d.outputs}"

/-- The wording of an error in loading a table. -/
def tableErrorMessage : TableError → String
  | .refused e => e.message
  | .repeatedName opcode name => s!"opcode '{opcode}' lists the name '{name}' twice"

/-- The opcode of a name or alias. -/
def lookup (t : OpcodeTable) (name : String) : Except String Opcode :=
  match t.get? name with
  | some op => .ok op
  | none => .error s!"Unknown opcode: {name}"

/-- The text that a command prints about a table. -/
def Command.run (t : OpcodeTable) : Command → ExceptT String SessionM String
  | build opcode args inputs => do
    let op ← MonadExcept.ofExcept (lookup t opcode)
    return wordText (← ExceptT.adapt Error.message (op.build (Assignment.ofPairs args) inputs))
  | read opcode w => do
    let op ← MonadExcept.ofExcept (lookup t opcode)
    return decodedText (← MonadExcept.ofExcept ((op.read w).mapError Error.message))
  | render opcode w => do
    let op ← MonadExcept.ofExcept (lookup t opcode)
    MonadExcept.ofExcept ((op.render w).mapError Error.message)
  | list => return "\n".intercalate (t.opcodes.map (·.describe))

/-- Fixes the settings of the session as a settings file gives them. -/
def loadSettings (content : Except FileError String) : ExceptT String SessionM Unit := do
  let env := (← get).environment
  let s ← MonadExcept.ofExcept ((Settings.ofFile env content).mapError SettingsError.message)
  if !(← (Session.installSettings s : SessionM Bool)) then
    throw "engine configuration was already initialized"

/-- Loads the settings and the table, and carries out the command. -/
def Options.perform (o : Options) (config : Option (Except FileError String))
    (table : Except FileError String) : ExceptT String SessionM String := do
  if let some content := config then loadSettings content
  let text ← MonadExcept.ofExcept <|
    table.mapError fun e => s!"Failed to read metadata '{o.table}': {e.message}"
  let t ← ExceptT.adapt tableErrorMessage (OpcodeTable.ofText text)
  o.command.run t

/-- The run of a command line without mistakes, given the contents of its files. -/
def Options.run (o : Options) (env : Environment) (config : Option (Except FileError String))
    (table : Except FileError String) : Exit :=
  match ((o.perform config table).run.run (Session.start env)).1 with
  | .ok text => ⟨0, text ++ "\n", ""⟩
  | .error message => ⟨1, "", s!"Error: {message}\n"⟩

/-- The run of a command line among files. -/
def run (env : Environment) (files : FileTree) (args : List String) : Exit :=
  match Options.ofArgs args with
  | .error stop => stop.exit
  | .ok o => o.run env (o.config.map files.read) (files.read o.table)

end CommandLine
end OperandCodec
