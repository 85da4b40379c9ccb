import OperandCodec.CommandLine.Written
/-!
# Flags among the words of a command line

The verbosity flags of a command line, told from its words alone. A word is a
flag by the way it is written, unless the option in front of it takes it as
its value. What the flags ask for is counted in letters, however many there
are.
-/

namespace OperandCodec
namespace CommandLine

/-- The options that take the next word as their value. -/
def valueOptions : List String := ["--config", "--inputs"]

/-- Whether the last word is an option without its value. -/
def wantsValue : List String → Bool
  | [] => false
  | word :: words =>
    if word ∈ valueOptions then
      match words with
      | [] => true
      | _ :: words => wantsValue words
    else wantsValue words

namespace VerbosityFlag

/-- The flag that a word is written as. -/
def ofText? (word : String) : Option VerbosityFlag :=
  if word = "-v" then some short
  else if word = "--verbose" then some long
  else match word.toList with
    | '-' :: 'v' :: 'v' :: more => if more.all (· == 'v') then some (cluster more.length) else none
    | _ => none

/-- How often a flag asks for more to be told: a cluster by each of its letters. -/
def letters : VerbosityFlag → Nat
  | short | long => 1
  | cluster more => more + 2

end VerbosityFlag

/-- The verbosity flags of a command line. -/
def flags : List String → List VerbosityFlag
  | [] => []
  | word :: words =>
    if word ∈ valueOptions then
      match words with
      | [] => []
      | _ :: words => flags words
    else (VerbosityFlag.ofText? word).toList ++ flags words

/-- The flag that an item is. -/
def Item.flag? : Item → Option VerbosityFlag
  | verbosity flag => some flag
  | _ => none

end CommandLine
end OperandCodec
