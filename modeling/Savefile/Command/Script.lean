/-! # Scripts

What a command does with the world is to read files and its input. A script says what is read and
what happens then, so that the command itself is a plain value.
-/
namespace Savefile.Command

/-- Why a file cannot be read. -/
inductive FileError where
  | notFound
  | denied
  | isDirectory
  | other (reason : String)
  deriving DecidableEq

/-- The text of the error about a file. -/
def FileError.message (path : String) : FileError → String
  | .notFound => "open " ++ path ++ ": no such file or directory"
  | .denied => "open " ++ path ++ ": permission denied"
  | .isDirectory => "read " ++ path ++ ": is a directory"
  | .other reason => "open " ++ path ++ ": " ++ reason

/-- What is read before there is a result. -/
inductive Script (α : Type) where
  | done (result : α)
  | readFile (path : String) (next : Except FileError (List UInt8) → Script α)
  | readInput (next : List UInt8 → Script α)

namespace Script

/-- The result when files and input are given. -/
def run {α : Type} (file : String → Except FileError (List UInt8)) (input : List UInt8) :
    Script α → α
  | .done a => a
  | .readFile path next => (next (file path)).run file input
  | .readInput next => (next input).run file input

end Script

end Savefile.Command
