import MipsFlow.Text.Decimal

/-!
# Issues

An issue is something wrong with a program, as opposed to a fault in the use of the library. Only
unreadable source and a run that does not settle stop the optimizer; after each of the others it
leaves the code in question as it is and goes on.
-/

namespace MipsFlow

/-- A place in a source text: lines and columns count from one, columns in characters. -/
structure Position where
  line : Nat
  column : Nat
deriving DecidableEq, Repr

/-- Source text that cannot be read, and where. Whoever reports it may give any line and column. -/
structure Malformed where
  filename : String
  line : Int
  column : Int
  reason : String
deriving DecidableEq, Repr

/-- What can be wrong with a program. -/
inductive Issue where
  | malformed (error : Malformed)
  /-- A jump to a label that is declared nowhere: the jump leaves the program. -/
  | unknownTarget (label : String)
  /-- No register is free to hold a shared value: it is computed again. -/
  | noFreeScratch (expression : String)
  /-- A constant division by zero: the division stays. -/
  | zeroDivisor (command : String)
  /-- The program still changed after the last cycle allowed. -/
  | notConverging (cycles : Int)
deriving DecidableEq, Repr

/-- The text of a syntax error. Without a file name the position is spelt out. -/
def Malformed.message (e : Malformed) : String :=
  let line := Text.decimal e.line
  let column := Text.decimal e.column
  if e.filename = "" then
    "Malformed input at line " ++ line ++ ", column " ++ column ++ ": " ++ e.reason
  else
    "Malformed input at " ++ e.filename ++ ":" ++ line ++ ":" ++ column ++ ": " ++ e.reason

/-- The text of an issue. -/
def Issue.message : Issue → String
  | .malformed e => e.message
  | .unknownTarget label => "Unknown jump target: " ++ label
  | .noFreeScratch expression => "No free scratch register to hold " ++ expression
  | .zeroDivisor command => "Division by zero in constant expression: " ++ command
  | .notConverging cycles =>
    "Optimization did not converge after " ++ Text.decimal cycles ++ " cycles"

end MipsFlow
