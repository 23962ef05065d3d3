import SlotJit.CommandLine.Session

/-!
# The program

Reads the command line and the manifest, carries out the command, and prints its report.
-/

namespace SlotJit

open SlotJit.CommandLine

/-- The manifest that a request reads. -/
def CommandLine.Request.manifest? : Request → Option String
  | .command (.run o) => some o.manifest
  | .command (.ir manifest) => some manifest
  | _ => none

/-- The text of a file, or the reason why it cannot be read. -/
def readText (path : String) : IO (Except String String) := do
  try
    return .ok (← IO.FS.readFile path)
  catch
    | .noFileOrDirectory .. => return .error "No such file or directory (os error 2)"
    | e => return .error (toString e)

/-- Carry out the command of the given words and return the exit code. A method that is killed by a
signal ends the process with the code that shells show for it. -/
def runMain (words : List String) : IO UInt32 := do
  let request := Request.ofWords words
  let content ← match request.manifest? with
    | some path => readText path
    | none => pure (.error "no file")
  let seed := ofLittleEndian (← IO.getRandomBytes 8).toList
  let report := request.execute (fun _ => content) (.ofSeed (UInt64.ofNat seed) 0)
  let stdout ← IO.getStdout
  let stderr ← IO.getStderr
  for line in report.output do stdout.putStrLn line
  for line in report.errors do stderr.putStrLn line
  match report.ending with
  | .exited code => return code.toUInt32
  | .killed signal => return (128 + signal.number).toUInt32

end SlotJit

/-- The command line program. -/
def main (words : List String) : IO UInt32 := SlotJit.runMain words
