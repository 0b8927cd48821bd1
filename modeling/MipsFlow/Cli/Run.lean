import MipsFlow.Cli.Flags
import MipsFlow.Cli.Host
import MipsFlow.Dataflow.Chart
import MipsFlow.Optimizer
import MipsFlow.Text.Blank

/-!
# A run of the command line program

Checks the environment, reads the flags and the source, optimizes it, and writes what was asked
for. The answer is the exit code: one if the work failed, two if it was not asked for properly.
-/

namespace MipsFlow.Cli

/-! ## Environment -/

/-- Reads a number from the environment. Values from `2 ^ 63` up stand for negative numbers, and
the result has to be greater than `least`. -/
def readSetting (key value : String) (default : Nat) (least : Int) : Except Fault Nat :=
  if value = "" then .ok default
  else
    match Text.Numeral.unsigned value.toList with
    | .error _ => .error (.environmentValue key)
    | .ok n =>
      let n := (Int64.ofNat n).toInt
      if n ≤ least then .error (.environmentTooSmall key) else .ok n.toNat

/-! ## Diagnostics -/

/-- A text, filled up with blanks in front to a width of three. -/
def padded (digits : String) : String :=
  String.ofList (List.replicate (3 - digits.length) ' ') ++ digits

/-- The lines of a text. -/
def linesOf (source : String) : List String := source.splitOn "\n"

/-- A syntax error with the line that it is in, and a mark under its column. -/
def diagnostic (e : Malformed) (source : String) : String :=
  let line := Text.decimal e.line
  let shown := if e.line < 1 then "" else ((linesOf source)[e.line.toNat - 1]?).getD ""
  let mark := String.ofList (List.replicate (e.column.toNat - 1) ' ') ++ "^"
  let margin := String.ofList (List.replicate (max 3 line.length) ' ')
  "error: " ++ e.reason ++ "\n" ++
    margin ++ "┌─ " ++ e.filename ++ ":" ++ line ++ ":" ++ Text.decimal e.column ++ "\n" ++
    margin ++ "│\n" ++
    padded line ++ "│" ++ shown ++ "\n" ++
    margin ++ "│" ++ mark ++ "\n\n"

/-- The line that closes a successful run. -/
def closing (path : String) (s : Summary) (elapsed : String) : String :=
  path ++ ": " ++ Text.decimalNat s.initial ++ " -> " ++ Text.decimalNat s.afterGlobal ++ " -> " ++
    Text.decimalNat s.final ++ " instructions (peak " ++ Text.decimalNat s.peak ++ ") in " ++
    Text.decimalNat s.cycles ++ " cycles, " ++ elapsed ++ "\n"

/-! ## Reserved registers -/

/-- The entries of a comma separated list; an empty text has none. -/
def entriesOf (list : String) : List String := if list = "" then [] else list.splitOn ","

/-- Reads registers. The first entry that is none is the error, as it was written. -/
def readRegisters (entries : List String) : Except String (List Reg) :=
  entries.mapM fun entry =>
    match Reg.ofName? (Text.trim entry) with
    | some r => .ok r
    | none => .error entry

/-! ## The run -/

section

variable {m : Type → Type} [Monad m]

/-- An exit code, in a run that may end early with one. -/
abbrev Ending (m : Type → Type) := ExceptT UInt32 m

/-- Ends the run after some last words. -/
def fail {α : Type} (words : m Unit) (code : UInt32) : Ending m α := do
  ExceptT.lift words
  throw code

/-- A fault ends the run at once. -/
def orFault {α : Type} (host : Host m) : Except Fault α → Ending m α
  | .ok a => return a
  | .error fault => fail (host.report ("panic: " ++ fault.message)) 2

/-- Writes a file, or ends the run. -/
def writeOrFail (host : Host m) (verb path content : String) : Ending m Unit := do
  match ← host.writeFile path content with
  | .ok () => return ()
  | .error reason =>
    fail (host.print ("Cannot " ++ verb ++ " " ++ path ++ ": " ++ reason ++ "\n")) 1

/-- The options that the environment sets. -/
def environmentOptions (host : Host m) : Ending m Options := do
  let cycles ← host.environment "ASMOPT_MAX_CYCLES"
  let maxCycles ← orFault host (readSetting "ASMOPT_MAX_CYCLES" cycles 0 0)
  let level ← host.environment "ASMOPT_VERBOSE"
  let verbose ← orFault host (readSetting "ASMOPT_VERBOSE" level 0 (-1))
  return { verbose, maxCycles }

/-- The flags and the path of the source, or the usage. -/
def readArguments (host : Host m) (args : List String) : Ending m (Flags × String) := do
  match readFlags {} args with
  | .error e =>
    let message := e.message?.elim "" (· ++ "\n")
    fail (host.report (message ++ usage)) (if e = .help then 0 else 2)
  | .ok (flags, [path]) => return (flags, path)
  | .ok _ => fail (host.report usage) 2

/-- Reads and parses the source. -/
def readProgram (host : Host m) (path : String) : Ending m Program := do
  match ← host.readFile path with
  | .error reason => fail (host.print ("Cannot read " ++ path ++ ": " ++ reason ++ "\n")) 1
  | .ok source =>
    match Program.parse path source with
    | .ok program => return program
    | .error e => fail (host.report (diagnostic e source)) 1

/-- The whole run, up to its exit code. -/
def session (host : Host m) (args : List String) : Ending m Unit := do
  let options ← environmentOptions host
  let (flags, path) ← readArguments host args
  let program ← readProgram host path
  if flags.sourceCopy ≠ "" then writeOrFail host "write" flags.sourceCopy program.text
  let reserved ← match readRegisters (entriesOf flags.reserved) with
    | .ok rs => pure rs
    | .error entry => fail (host.print ("Invalid register: " ++ entry ++ "\n")) 2
  let options := reserved.foldl Options.reserve { options with verbose := flags.verbose.toNat }
  let result ← orFault host (Optimizer.run options program)
  if let some cycles := result.notConverging then
    let elapsed ← host.elapsed
    fail (host.print ("Optimization failed after " ++ elapsed ++ ": " ++
      (Issue.notConverging cycles).message ++ "\n")) 1
  let text := result.program.text
  if flags.output = "" then host.print text else writeOrFail host "write" flags.output text
  if flags.chart ≠ "" then
    let g := Graph.build result.program.code
    let facts := Facts.analyze g (Reg.alwaysReserved ++ reserved)
    writeOrFail host "create" flags.chart (Chart.draw g facts)
  let elapsed ← host.elapsed
  host.report (closing path result.summary elapsed)

/-- Runs the program and gives its exit code. -/
def run (host : Host m) (args : List String) : m UInt32 := do
  match ← (session host args).run with
  | .ok () => return 0
  | .error code => return code

end

end MipsFlow.Cli
