import Lowering.CommandLine

/-!
# The program

Reads the files that its arguments name, runs the command line on them and prints what it says.
-/

namespace Lowering

/-- The problem that an error of the system stands for. -/
def problemOf : IO.Error → PathProblem
  | .noFileOrDirectory .. => .missing
  | .inappropriateType _ 20 _ => .notDirectory
  | .inappropriateType .. => .isDirectory
  | .invalidArgument _ 36 _ => .tooLong
  | _ => .invalid

/-- The file that a path leads to. -/
def readPath (path : String) : IO (Text × Except FileError Text) := do
  let name := Text.ofString path
  try
    let bytes ← IO.FS.readBinFile path
    return (name, .ok bytes.data.toList)
  catch e =>
    return (name, .error ⟨name, problemOf e⟩)

/-- Reads from files that were read before. -/
def readerOf (found : List (Text × Except FileError Text)) : FileReader := fun path =>
  (found.lookup path).getD (.error ⟨path, .missing⟩)

/-- Runs the command line on the files that its arguments name. -/
def runProgram (args : List String) : IO UInt32 := do
  let found ← args.mapM readPath
  let outcome := CommandLine.run (readerOf found) (args.map Text.ofString)
  (← IO.getStdout).write ⟨outcome.printed.toArray⟩
  if let some complaint := outcome.complaint then
    (← IO.getStderr).write ⟨("error: " ++ complaint ++ "\n" : Text).toArray⟩
  return UInt32.ofNat outcome.code

end Lowering

def main (args : List String) : IO UInt32 := Lowering.runProgram args
