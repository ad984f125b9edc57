import MiniPascal.Command.Run
import MiniPascal.Text.Utf8

/-!
# The compiler as a program

Reads the files that a command line names, runs the compiler on them, and prints what it says.  No tool
is run from here, so no object file is made.
-/

namespace MiniPascal

/-- Reads a file for the compiler.  Bytes that are no text are replaced. -/
def readFile (path : String) : IO (String × Except FileError String) := do
  try
    let bytes ← IO.FS.readBinFile path
    return (path, .ok (String.ofList (Text.decode bytes.toList)))
  catch _ => return (path, .error (.missing path))

end MiniPascal

open MiniPascal in
def main (args : List String) : IO UInt32 := do
  let found ← (Command.paths args).mapM readFile
  let world : Command.World :=
    { read := fun path => (found.lookup path).getD (.error (.missing path))
      tool? := fun _ => none
      tempFile := fun ending => "pasc" ++ ending
      system := "linux"
      arch := "amd64" }
  let (code, console) := Command.run world args
  (← IO.getStderr).putStr console.stderr
  (← IO.getStdout).putStr console.stdout
  return code.toUInt32
