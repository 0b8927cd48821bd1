import MipsFlow.Source.Token
import MipsFlow.Text.Blank
import MipsFlow.Instr

/-!
# Lines of an assembly source

A line has any number of labels, then a directive or a command or neither, then a comment or none.
The operands of a command are separated by single commas. Tokens come in no other order than this,
but for commas: one behind the mnemonic, or without an operand behind it, is out of place.
-/

namespace MipsFlow.Source

/-- A command as it is written: its operands are not read yet. -/
structure CommandText where
  position : Position
  mnemonic : String
  operands : List String
deriving DecidableEq, Repr

/-- What follows the labels of a line. -/
inductive Statement where
  | directive (text : String)
  | command (c : CommandText)
deriving DecidableEq, Repr

/-- A line of the source. -/
structure Line where
  labels : List String
  statement : Option Statement
  /-- The text behind the hash sign. -/
  comment : Option String
  /-- The line begins in the first column. -/
  flush : Bool
deriving DecidableEq, Repr

/-- A token without its first character, which is a hash sign. -/
def commentText (t : Token) : String := String.ofList (t.text.drop 1)

/-- A label token without its last character, which is a colon. -/
def labelText (t : Token) : String := String.ofList t.text.dropLast

/-- The tokens of each line, without the line breaks. -/
def splitLines : List Token → List (List Token)
  | [] => []
  | t :: rest =>
    if t.kind = .newline then [] :: splitLines rest
    else
      match splitLines rest with
      | [] => [[t]]
      | line :: lines => (t :: line) :: lines

/-- The operands behind the first one, each with its comma, and the tokens left over. -/
def moreOperands : List Token → List String × List Token
  | comma :: operand :: rest =>
    if comma.kind = .comma ∧ operand.kind = .operand then
      let (operands, left) := moreOperands rest
      (String.ofList operand.text :: operands, left)
    else ([], comma :: operand :: rest)
  | rest => ([], rest)

/-- The operands of a command, and the tokens left over. -/
def firstOperands : List Token → List String × List Token
  | t :: rest =>
    if t.kind = .operand then
      let (more, left) := moreOperands rest
      (String.ofList t.text :: more, left)
    else ([], t :: rest)
  | [] => ([], [])

/-- The directive or command of a line, and the tokens left over. -/
def readStatement : List Token → Option Statement × List Token
  | t :: rest =>
    match t.kind with
    | .directive => (some (.directive (Text.trim (String.ofList t.text))), rest)
    | .mnemonic =>
      let (operands, left) := firstOperands rest
      (some (.command ⟨t.position, String.ofList t.text, operands⟩), left)
    | _ => (none, t :: rest)
  | [] => (none, [])

/-- The comment at the end of a line, and the tokens left over. -/
def trailingComment : List Token → Option String × List Token
  | t :: rest => if t.kind = .comment then (some (commentText t), rest) else (none, t :: rest)
  | [] => (none, [])

/-- Reads the tokens of a line. The first token that has no place in it is the error. -/
def Line.ofTokens (line : List Token) : Except Token Line :=
  let labels := line.takeWhile (·.kind = .label)
  let (statement, left) := readStatement (line.dropWhile (·.kind = .label))
  let (comment, left) := trailingComment left
  match left with
  | t :: _ => .error t
  | [] =>
    .ok { labels := labels.map labelText
          statement
          comment
          flush := line.head?.all (·.position.column ≤ 1) }

/-! ## From lines to instructions -/

/-- Reads the operands of a command. -/
def CommandText.read (c : CommandText) : Except OperandError Command := do
  let args ← c.operands.mapM fun text => Operand.ofText (Text.trim text)
  return ⟨.ofName c.mnemonic, args⟩

/-- Reads what follows the labels. A bad operand is reported at the mnemonic. -/
def Statement.read : Statement → Except (Position × OperandError) Content
  | .directive text => .ok (.directive text)
  | .command c =>
    match c.read with
    | .ok read => .ok (.command read)
    | .error e => .error (c.position, e)

/-- Puts a comment on the last of several instructions. -/
def commentLast (comment : String) : List (Content × String) → List (Content × String)
  | [] => []
  | [(content, _)] => [(content, comment)]
  | item :: rest => item :: commentLast comment rest

/-- The instructions of a line, each with its comment. The comment belongs to the last of them,
or stands alone if there is none. -/
def Line.items (line : Line) : Except (Position × OperandError) (List (Content × String)) := do
  let labels := line.labels.map fun name => (Content.label name, "")
  let statement ← match line.statement with
    | none => pure []
    | some s => do pure [(← s.read, "")]
  let items := labels ++ statement
  match line.comment with
  | none => return items
  | some text =>
    if items.isEmpty then return [(.comment text (!line.flush), "")]
    else return commentLast text items

end MipsFlow.Source
