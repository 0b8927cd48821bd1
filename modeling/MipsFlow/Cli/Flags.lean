import MipsFlow.Text.Numeral
import MipsFlow.Text.Quoted

/-!
# Command line flags

A flag is written with one or two dashes, and its value follows in the next argument or behind an
equals sign. The first argument that is not a flag ends them, and so does a double dash. The first
thing wrong with the flags is the error.
-/

namespace MipsFlow.Cli

/-- What the flags say. -/
structure Flags where
  verbose : Int := 0
  output : String := ""
  sourceCopy : String := ""
  chart : String := ""
  reserved : String := ""
  logLevel : Int := 0
deriving DecidableEq, Repr

/-- Why the flags are refused. -/
inductive FlagError where
  /-- Not an error: the usage is asked for. -/
  | help
  | badForm (arg : String)
  | undefined (name : String)
  | missingValue (name : String)
  | badValue (value name : String) (error : Text.NumeralError)
deriving DecidableEq, Repr

/-- The text of a flag error; a request for help has none. -/
def FlagError.message? : FlagError → Option String
  | .help => none
  | .badForm arg => some ("bad flag syntax: " ++ arg)
  | .undefined name => some ("flag provided but not defined: -" ++ name)
  | .missingValue name => some ("flag needs an argument: -" ++ name)
  | .badValue value name error =>
    some ("invalid value " ++ Text.quote value ++ " for flag -" ++ name ++ ": " ++
      match error with
      | .malformed => "parse error"
      | .outOfRange => "value out of range")

/-- An argument, taken apart. -/
inductive Argument where
  /-- A flag, and its value if it has one behind an equals sign. -/
  | flag (name : List Char) (value : Option (List Char))
  /-- A double dash: the rest are plain arguments. -/
  | terminator
  /-- The first of the plain arguments. -/
  | plain
  | bad
deriving DecidableEq, Repr

/-- Takes a flag apart, behind its dashes. -/
def splitFlag : List Char → Argument
  | [] => .bad
  | c :: cs =>
    if c = '-' ∨ c = '=' then .bad
    else
      match cs.dropWhile (· ≠ '=') with
      | '=' :: value => .flag (c :: cs.takeWhile (· ≠ '=')) (some value)
      | _ => .flag (c :: cs) none

/-- Takes an argument apart. -/
def Argument.ofChars : List Char → Argument
  | ['-'] => .plain
  | ['-', '-'] => .terminator
  | '-' :: '-' :: cs => splitFlag cs
  | '-' :: cs => splitFlag cs
  | _ => .plain

/-- The flags that have a value. -/
def flagNames : List String := ["draw-liveness", "log-level", "o", "orig", "reserved", "v"]

/-- Reads the value of a numeric flag. -/
def readNumber (name value : String) : Except FlagError Int :=
  match Text.Numeral.signed value.toList with
  | .ok n => .ok n
  | .error e => .error (.badValue value name e)

/-- Sets a flag. -/
def Flags.set (f : Flags) (name value : String) : Except FlagError Flags :=
  match name with
  | "v" => (readNumber name value).map fun n => { f with verbose := n }
  | "log-level" => (readNumber name value).map fun n => { f with logLevel := n }
  | "o" => .ok { f with output := value }
  | "orig" => .ok { f with sourceCopy := value }
  | "draw-liveness" => .ok { f with chart := value }
  | "reserved" => .ok { f with reserved := value }
  | _ => .error (.undefined name)

/-- Reads the flags of a command line, and gives the plain arguments behind them. -/
def readFlags (f : Flags) : List String → Except FlagError (Flags × List String)
  | [] => .ok (f, [])
  | arg :: rest =>
    match Argument.ofChars arg.toList with
    | .plain => .ok (f, arg :: rest)
    | .terminator => .ok (f, rest)
    | .bad => .error (.badForm arg)
    | .flag name value =>
      let name := String.ofList name
      if !flagNames.contains name then
        .error (if name = "h" ∨ name = "help" then .help else .undefined name)
      else
        match value, rest with
        | some value, rest => (f.set name (String.ofList value)).bind (readFlags · rest)
        | none, value :: rest => (f.set name value).bind (readFlags · rest)
        | none, [] => .error (.missingValue name)

/-- What the program says about its flags. -/
def usage : String :=
  "Usage: asmopt [flags] <file.s>\n\n" ++
    "  -draw-liveness string\n" ++
    "    \tdraw the liveness of the optimized program as SVG into this file\n" ++
    "  -log-level int\n" ++
    "    \tlog verbosity: 0 errors only, 1 info, 2 debug\n" ++
    "  -o string\n" ++
    "    \twrite the optimized program to this file instead of stdout\n" ++
    "  -orig string\n" ++
    "    \talso write the unmodified program to this file\n" ++
    "  -reserved string\n" ++
    "    \tcomma separated registers the optimizer must not touch\n" ++
    "  -v int\n" ++
    "    \tannotation level of the output: 0, 1 or 2\n"

end MipsFlow.Cli
