import Savefile.Command.Run

/-! # The command line tool

Carries out scripts: reads what they ask for, and prints their outcome.
-/
namespace Savefile.Command

def readHostFile (path : String) : IO (Except FileError (List UInt8)) := do
  try
    let content ← IO.FS.readBinFile path
    return .ok content.toList
  catch e =>
    match e with
    | .noFileOrDirectory .. => return .error .notFound
    | .permissionDenied .. => return .error .denied
    | .inappropriateType .. => return .error .isDirectory
    | e => return .error (.other (toString e))

/-- Reads a stream to its end. -/
partial def readAll (stream : IO.FS.Stream) (read : ByteArray) : IO ByteArray := do
  let chunk ← stream.read 65536
  if chunk.isEmpty then return read else readAll stream (read ++ chunk)

/-- Carries out a script. -/
def execute {α : Type} : Script α → IO α
  | .done a => return a
  | .readFile path next => do execute (next (← readHostFile path))
  | .readInput next => do
    let bytes ← readAll (← IO.getStdin) .empty
    execute (next bytes.toList)

/-- Carries out a command line and gives the exit code, which tells a fault from an error. -/
def executeLine (args : List String) : IO UInt32 := do
  let outcome ← execute (run args)
  (← IO.getStderr).putStr outcome.noteText
  let out ← IO.getStdout
  out.write ⟨outcome.output.toArray⟩
  out.flush
  match outcome.stop with
  | none => return 0
  | some (.error e) =>
    (← IO.getStderr).putStr e.report
    return 1
  | some (.fault _) => return 2

end Savefile.Command

/-- The command line tool. -/
def main (args : List String) : IO UInt32 := Savefile.Command.executeLine args
