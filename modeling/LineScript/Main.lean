import LineScript.CommandLine

/-!
# Running the command
-/

open LineScript

/-- What is stored at a path, if it can be read. A directory can be opened, so the error about it
comes from reading and has no path. -/
def readStored (path : String) : IO (Option Stored) := do
  try
    return some (.file (← IO.FS.readBinFile path).toList)
  catch
    | .inappropriateType none _ _ => return some .directory
    | _ => return none

/-- What is stored at the path that the arguments name. -/
def namedFile (arguments : List String) : IO (String → Option Stored) := do
  match CommandLine.readArguments arguments with
  | .ok { file := some path, .. } =>
    let stored ← readStored path
    return fun wanted => if wanted = path then stored else none
  | _ => return fun _ => none

/-- Run the command on the arguments, the environment and the files of this process. -/
def main (arguments : List String) : IO UInt32 := do
  let files ← namedFile arguments
  let concatMode ← IO.getEnv Environment.concatModeName
  let optimize ← IO.getEnv Environment.optimizeName
  let maxErrors ← IO.getEnv Environment.maxErrorsName
  let output := CommandLine.run files ⟨concatMode, optimize, maxErrors⟩ arguments
  IO.print (CommandLine.written output.stdout)
  IO.eprint (CommandLine.written output.stderr)
  return output.exitCode.toUInt32
