import Standstill.Program

/-!
The command line.
-/
namespace Standstill

/-- Why the system would not let the file be read. -/
def fileFault : IO.Error → FileFault
  | .permissionDenied .. => .notAllowed
  | .inappropriateType _ code _ => if code = 21 then .directory else .belowFile
  | _ => .missing

/-- Reads a file. -/
def readText (path : String) : IO (Except FileFault String) := do
  try
    return textOf (← IO.FS.readBinFile path)
  catch e =>
    return .error (fileFault e)

/-- The file that the arguments name, if they can be understood. -/
def configPath? (args : List String) : Option String :=
  match CommandLine.parse args with
  | .ok a => a.config
  | .error _ => none

/-- Runs the program on what its file holds. -/
def runProgram (args : List String) : IO UInt32 := do
  let file ← match configPath? args with
    | some path => readText path
    | none => pure (.error .missing)
  let out := Program.execute (fun _ => file) args
  (← IO.getStdout).putStr out.stdout
  (← IO.getStderr).putStr out.stderr
  return out.exitCode.toUInt32

end Standstill

def main (args : List String) : IO UInt32 := Standstill.runProgram args
