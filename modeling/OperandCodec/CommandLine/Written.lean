import OperandCodec.CommandLine.Options
/-!
# Command lines that are written

A command line as the one who writes it means it: a list of items, each an
option with its value or a positional argument, in any order. What the items
say by themselves is what a scan of their words should find.
-/

namespace OperandCodec
namespace CommandLine

/-- The options that are written in one way only. -/
def namedOptions : List String :=
  ["--config", "--inputs", "-h", "--help", "-V", "--version", "-v", "--verbose"]

/-- The ways to ask for more to be told. -/
inductive VerbosityFlag where
  | short
  | long
  /-- A hyphen with two letters, and so many more. -/
  | cluster (more : Nat)

/-- A flag as it is written. -/
def VerbosityFlag.text : VerbosityFlag → String
  | short => "-v"
  | long => "--verbose"
  | cluster more => String.ofList ('-' :: List.replicate (more + 2) 'v')

/-- The steps by which a flag raises the verbosity. -/
def VerbosityFlag.steps : VerbosityFlag → Nat
  | short | long => 1
  | cluster more => (more + 2) % 256

/-- An option with its value, or a positional argument. -/
inductive Item where
  | positional (text : String)
  | inputs (count : Nat)
  | config (file : String)
  | verbosity (flag : VerbosityFlag)

namespace Item

/-- The words of an item. -/
def words : Item → List String
  | positional text => [text]
  | inputs count => ["--inputs", toString count]
  | config file => ["--config", file]
  | verbosity flag => [flag.text]

/-- Whether an item can be told from others: a positional argument has no hyphen in front, and a
count is one that the program can hold. -/
def Plain : Item → Prop
  | positional text => text.toList.head? ≠ some '-'
  | inputs count => count ≤ Text.maxCount
  | config _ | verbosity _ => True

/-- A scan that goes on behind an item. -/
def apply (scan : Scan) : Item → Scan
  | positional text => { scan with positional := scan.positional ++ [text] }
  | inputs count => { scan with inputs := some count }
  | config file => { scan with config := some file }
  | verbosity flag => scan.louder flag.steps

def positional? : Item → Option String
  | positional text => some text
  | _ => none

def count? : Item → Option Nat
  | inputs count => some count
  | _ => none

def file? : Item → Option String
  | config file => some file
  | _ => none

/-- The steps by which an item raises the verbosity. -/
def steps : Item → Nat
  | verbosity flag => flag.steps
  | _ => 0

end Item

/-- A name and a value as a positional argument. -/
def pairText (p : String × Value) : String :=
  p.1 ++ "=" ++ p.2.text

end CommandLine
end OperandCodec
