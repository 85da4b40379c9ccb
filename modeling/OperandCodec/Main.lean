import OperandCodec.CommandLine.Run
/-!
# The program

Reads the files that the command line names, and prints what the run of the
command line leaves behind.
-/

open OperandCodec OperandCodec.CommandLine

/-- The cause of a failure to read a file. -/
def fileError : IO.Error → FileError
  | .noFileOrDirectory .. => .missing
  | .inappropriateType _ 20 _ => .notFolder
  | .inappropriateType _ 21 _ => .folder
  | .invalidArgument _ 36 _ => .nameTooLong
  | e => .other (toString e)

/-- The content of a file as text. -/
def readText (path : String) : IO (Except FileError String) := do
  try
    let bytes ← IO.FS.readBinFile path
    match String.fromUTF8? bytes with
    | some text => return .ok text
    | none => return .error .notText
  catch e => return .error (fileError e)

/-- The variables of the environment that the settings look at. -/
def readEnvironment : IO Environment := do
  let names := [Settings.treeCacheVariable, Settings.inversionCacheVariable]
  let found ← names.mapM fun name => do
    return (← IO.getEnv name).map fun text => (name, text)
  return found.filterMap id

/-- The run of the command line. -/
def main (args : List String) : IO UInt32 := do
  let exit ← match Options.ofArgs args with
    | .error stop => pure stop.exit
    | .ok o => do
      let config ← o.config.mapM readText
      let table ← readText o.table
      pure (o.run (← readEnvironment) config table)
  (← IO.getStdout).putStr exit.out
  (← IO.getStderr).putStr exit.err
  return exit.status.toUInt32
