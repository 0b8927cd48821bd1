import MipsFlow.Cli.Duration
import MipsFlow.Cli.Run

/-!
# The command line program

Runs the optimizer on the real system. Everything that the program decides is in
`MipsFlow.Cli.Run`; here are only the files, the outputs and the clock.
-/

namespace MipsFlow.Cli

/-- The error code is the given one; some calls answer with its negative. -/
def isCode (number code : UInt32) : Bool := code = number || code = -number

/-- The path error that an error of the system stands for. -/
def pathError? : IO.Error → Option PathError
  | .noFileOrDirectory .. => some .missing
  | .inappropriateType _ code _ => some (if isCode 20 code then .notDirectory else .isDirectory)
  | .invalidArgument _ code _ => if isCode 36 code then some .tooLong else none
  | _ => none

/-- What a failed file operation is reported as; `access` is the operation that a directory does
not allow. -/
def failureText (access path : String) (error : IO.Error) : String :=
  match pathError? error, error with
  | some e, _ => e.report (if e = .isDirectory then access else "open") path
  | none, .permissionDenied .. => "open " ++ path ++ ": permission denied"
  | none, other => "open " ++ path ++ ": " ++ toString other

/-- The real system, for a run that began at the given time. -/
def system (began : Nat) : Host IO where
  environment key := do return (← IO.getEnv key).getD ""
  readFile path := do
    try return .ok (← IO.FS.readFile path)
    catch e => return .error (failureText "read" path e)
  writeFile path content := do
    try
      IO.FS.writeFile path content
      return .ok ()
    catch e => return .error (failureText "open" path e)
  print text := IO.print text
  report text := IO.eprint text
  elapsed := do return durationText ((← IO.monoNanosNow) - began)

end MipsFlow.Cli

/-- Runs the program with the arguments of the command line. -/
def main (args : List String) : IO UInt32 := do
  let began ← IO.monoNanosNow
  MipsFlow.Cli.run (MipsFlow.Cli.system began) args
