import MipsFlow.Source.Line
import MipsFlow.Instr.Printer

/-!
# Programs

A program is a sequence of instructions, together with the identity that the next new one will
get. Reading a source numbers the instructions from one. The source is first cut into tokens, then
into lines, then the operands are read, so that an error of an earlier phase wins over one of a
later phase, wherever the two stand.
-/

namespace MipsFlow

/-- A sequence of instructions and the next free identity. -/
structure Program where
  code : List Instr
  nextId : Nat
deriving DecidableEq, Repr

namespace Program

/-- Why a source is refused. -/
inductive SyntaxError where
  /-- No token begins with the text at the position. -/
  | unreadable (position : Position) (rest : List Char)
  /-- A token has no place on its line. -/
  | misplaced (token : Source.Token)
  /-- The command at the position has an operand that cannot be read. -/
  | operand (position : Position) (error : OperandError)
deriving DecidableEq, Repr

namespace SyntaxError

/-- Where the error is. -/
def position : SyntaxError → Position
  | .unreadable position _ => position
  | .misplaced token => token.position
  | .operand position _ => position

/-- What the error is. -/
def reason : SyntaxError → String
  | .unreadable _ rest => "lexer: invalid input text " ++ Text.quote (Source.excerpt rest)
  | .misplaced token =>
    "unexpected token " ++ Text.quote (String.ofList token.text) ++ " (expected <eol>)"
  | .operand _ error => error.message

end SyntaxError

/-- The source with a line break at its end. -/
def completed (cs : List Char) : List Char :=
  if cs.getLast? = some '\n' then cs else cs ++ ['\n']

/-- Cuts a source into lines. -/
def readLines (cs : List Char) : Except SyntaxError (List Source.Line) :=
  match Source.tokens (completed cs) with
  | .error (position, rest) => .error (.unreadable position rest)
  | .ok tokens =>
    match (Source.splitLines tokens).mapM Source.Line.ofTokens with
    | .error token => .error (.misplaced token)
    | .ok lines => .ok lines

/-- The instructions of the lines, each with its comment. -/
def readItems (lines : List Source.Line) : Except SyntaxError (List (Content × String)) :=
  match lines.mapM Source.Line.items with
  | .error (position, e) => .error (.operand position e)
  | .ok items => .ok items.flatten

/-- Numbers instructions from one. -/
def ofItems (items : List (Content × String)) : Program :=
  { code := (items.zipIdx 1).map fun ((content, comment), id) => { id, content, comment }
    nextId := items.length + 1 }

/-- Reads a source text. -/
def read (cs : List Char) : Except SyntaxError Program := do
  return ofItems (← readItems (← readLines cs))

/-- Reads the source text of a file. -/
def parse (filename source : String) : Except Malformed Program :=
  match read source.toList with
  | .ok program => .ok program
  | .error e => .error ⟨filename, e.position.line, e.position.column, e.reason⟩

/-- The number of commands and labels. -/
def size (program : Program) : Nat := codeSize program.code

/-- The source text of the program. -/
def text (program : Program) : String := listing program.code

end Program

end MipsFlow
