/-
# `Main` — the command

Reads the files that the arguments name, and the standard input if nothing
else gives the script, runs the command on them and prints its report.
-/
import MatrixScript.CommandLine

namespace MatrixScript.CommandLine

/-- What the system says about a file that cannot be read. -/
def readingError : IO.Error → Error
  | .noFileOrDirectory .. => .io "No such file or directory (os error 2)"
  | .permissionDenied .. => .io "Permission denied (os error 13)"
  | .inappropriateType .. => .io "Is a directory (os error 21)"
  | e => .io (toString e)

/-- Contents of a file, or why it cannot be read. -/
def contents (path : String) : IO (Except Error String) := do
  try
    return .ok (← IO.FS.readFile path)
  catch e => return .error (readingError e)

/-- Paths that the arguments name. -/
def paths (arguments : List String) : List String :=
  match Arguments.readFrom {} none arguments with
  | .ok a => (if a.source.isSome then [] else a.file.toList) ++ a.config.toList
  | .error _ => []

/-- The arguments leave the script to the standard input. -/
def needsInput (arguments : List String) : Bool :=
  match Arguments.readFrom {} none arguments with
  | .ok a => a.source.isNone && a.file.isNone
  | .error _ => false

/-- The files that were read, as surroundings. -/
def surroundings (input : String) (files : List (String × Except Error String)) : Surroundings :=
  { input
    file := fun path =>
      (files.lookup path).getD (.error (.io "No such file or directory (os error 2)")) }

end MatrixScript.CommandLine

open MatrixScript.CommandLine in
/-- The command. -/
def main (arguments : List String) : IO UInt32 := do
  let input ← if needsInput arguments then (← IO.getStdin).readToEnd else pure ""
  let files ← (paths arguments).mapM fun path => do return (path, ← contents path)
  let report := run (surroundings input files) arguments
  IO.print report.output
  IO.eprint report.errors
  return report.status.toUInt32
