/-!
# What a command line program needs around it

Files, two output channels and a clock, as operations of any monad.
-/

namespace MipsFlow.Cli

/-- The operations that a run needs. -/
structure Host (m : Type → Type) where
  /-- The value of an environment variable; empty if it is not set. -/
  environment : String → m String
  /-- Reads a file, or says why it cannot be read. -/
  readFile : String → m (Except String String)
  /-- Writes a file, or says why it cannot be written. -/
  writeFile : String → String → m (Except String Unit)
  /-- Writes to the standard output. -/
  print : String → m Unit
  /-- Writes to the standard error output. -/
  report : String → m Unit
  /-- The time since the run began, as text. -/
  elapsed : m String

/-- Why there is no file at the end of a path. -/
inductive PathError where
  | missing
  | notDirectory
  | isDirectory
  | tooLong
deriving DecidableEq, Repr

/-- The text of a path error. -/
def PathError.message : PathError → String
  | .missing => "no such file or directory"
  | .notDirectory => "not a directory"
  | .isDirectory => "is a directory"
  | .tooLong => "file name too long"

/-- A path error with the operation that failed and its path. -/
def PathError.report (e : PathError) (operation path : String) : String :=
  operation ++ " " ++ path ++ ": " ++ e.message

end MipsFlow.Cli
