import MipsFlow.Issue
import MipsFlow.Text.Quoted

/-!
# Tokens of an assembly source

A source is cut into tokens from left to right. At the start of a line stand labels, directives
and mnemonics; behind a mnemonic stand operands and commas, up to the end of the line. In each of
these two modes the first rule that fits decides, and where none fits the source is refused.
Blanks between tokens are dropped.

A source is a sequence of characters. Bytes that encode none are left out.
-/

namespace MipsFlow.Source

/-- What a token is. -/
inductive TokenKind where
  | comment
  | newline
  | label
  | directive
  | mnemonic
  | comma
  | operand
deriving DecidableEq, Repr

/-- A token, its text and where it starts. -/
structure Token where
  kind : TokenKind
  text : List Char
  position : Position
deriving DecidableEq, Repr

/-- What is expected: the start of a line, or the operands of a command. -/
inductive Mode where
  | line
  | operands
deriving DecidableEq, Repr

/-! ## Characters -/

/-- A letter of the English alphabet. -/
def isLetter (c : Char) : Bool := c.isAlpha

/-- A blank between tokens. -/
def isGap (c : Char) : Bool := c = ' ' || c = '\t' || c = '\r'

/-- A character of a label. -/
def isLabelChar (c : Char) : Bool := c.isAlphanum || c = '_' || c = '.' || c = '$'

/-- A character of a mnemonic after its first letter. -/
def isMnemonicChar (c : Char) : Bool := c.isAlphanum || c = '_' || c = '.'

/-- The first character of an operand: no separator, and none of the plain blanks. -/
def startsOperand (c : Char) : Bool :=
  c ≠ ',' && c ≠ '#' && c ≠ '\t' && c ≠ '\n' && c ≠ '\x0c' && c ≠ '\r' && c ≠ ' '

/-- A further character of an operand. -/
def continuesOperand (c : Char) : Bool := c ≠ ',' && c ≠ '#' && c ≠ '\n'

/-! ## Rules

Each rule splits off the text of its token, or does not apply. -/

/-- Splits off the longest run of characters with the property. -/
def splitRun (property : Char → Bool) (cs : List Char) : List Char × List Char :=
  (cs.takeWhile property, cs.dropWhile property)

/-- A run of blanks. -/
def gap? (cs : List Char) : Option (List Char × List Char) :=
  match splitRun isGap cs with
  | ([], _) => none
  | split => some split

/-- A hash sign and the rest of the line. -/
def comment? : List Char → Option (List Char × List Char)
  | '#' :: cs =>
    let (text, rest) := splitRun (· ≠ '\n') cs
    some ('#' :: text, rest)
  | _ => none

/-- A line break. -/
def newline? : List Char → Option (List Char × List Char)
  | '\n' :: cs => some (['\n'], cs)
  | _ => none

/-- A run of label characters with a colon behind it. -/
def label? (cs : List Char) : Option (List Char × List Char) :=
  match splitRun isLabelChar cs with
  | (c :: name, ':' :: rest) => some (c :: name ++ [':'], rest)
  | _ => none

/-- The characters after an opening quote contain the closing one on the same line. A backslash
hides the character behind it. -/
def closesString : List Char → Bool
  | '\\' :: c :: cs => c ≠ '\n' && closesString cs
  | c :: cs => c = '"' || (c ≠ '\n' && closesString cs)
  | [] => false

/-- The rest of a directive: everything up to a line break or a hash sign, where quoted strings
count as a whole. A quote that does not close ends the directive before it. -/
def directiveRest : Bool → List Char → List Char × List Char
  | true, '\\' :: c :: cs =>
    let (text, rest) := directiveRest true cs
    ('\\' :: c :: text, rest)
  | true, c :: cs =>
    let (text, rest) := directiveRest (c ≠ '"') cs
    (c :: text, rest)
  | false, c :: cs =>
    if c = '\n' ∨ c = '#' ∨ (c = '"' ∧ !closesString cs) then ([], c :: cs)
    else
      let (text, rest) := directiveRest (c = '"') cs
      (c :: text, rest)
  | _, [] => ([], [])

/-- A dot, a letter or underscore, and the rest of the directive. -/
def directive? : List Char → Option (List Char × List Char)
  | '.' :: c :: cs =>
    if isLetter c ∨ c = '_' then
      let (text, rest) := directiveRest false cs
      some ('.' :: c :: text, rest)
    else none
  | _ => none

/-- A letter and a run of mnemonic characters. -/
def mnemonic? : List Char → Option (List Char × List Char)
  | c :: cs =>
    if isLetter c then
      let (text, rest) := splitRun isMnemonicChar cs
      some (c :: text, rest)
    else none
  | [] => none

/-- A comma. -/
def comma? : List Char → Option (List Char × List Char)
  | ',' :: cs => some ([','], cs)
  | _ => none

/-- Everything up to a comma, a hash sign or the end of the line. -/
def operand? : List Char → Option (List Char × List Char)
  | c :: cs =>
    if startsOperand c then
      let (text, rest) := splitRun continuesOperand cs
      some (c :: text, rest)
    else none
  | [] => none

/-! ## Cutting -/

/-- The next token, or blanks if there is no kind: its text, and what follows. -/
structure Lexeme where
  kind : Option TokenKind
  text : List Char
  rest : List Char
deriving DecidableEq, Repr

/-- A rule that applied, as a lexeme of the given kind. -/
def lexeme? (kind : Option TokenKind) (split : Option (List Char × List Char)) : Option Lexeme :=
  split.map fun (text, rest) => { kind, text, rest }

/-- The first rule of the mode that applies. -/
def nextLexeme? (mode : Mode) (cs : List Char) : Option Lexeme :=
  let shared :=
    lexeme? none (gap? cs) <|> lexeme? (some .comment) (comment? cs) <|>
      lexeme? (some .newline) (newline? cs)
  match mode with
  | .line =>
    shared <|> lexeme? (some .label) (label? cs) <|> lexeme? (some .directive) (directive? cs) <|>
      lexeme? (some .mnemonic) (mnemonic? cs)
  | .operands =>
    shared <|> lexeme? (some .comma) (comma? cs) <|> lexeme? (some .operand) (operand? cs)

/-- The mode after a token: a mnemonic opens its operands, and the end of the line closes them. -/
def Mode.after (mode : Mode) : Option TokenKind → Mode
  | some .mnemonic => .operands
  | some .newline => .line
  | _ => mode

/-- The position behind a token. Only line breaks contain one. -/
def advance (position : Position) (kind : Option TokenKind) (text : List Char) : Position :=
  if kind = some .newline then ⟨position.line + 1, 1⟩
  else { position with column := position.column + text.length }

/-- The beginning of a text that is shown in a message. -/
def excerpt (cs : List Char) : String :=
  String.ofList (cs.take 16) ++ if 16 < cs.length then "..." else ""

/-- Cuts the source into tokens. Every lexeme takes at least one character, so a step for each
character is enough; where no rule applies, the position and the text left over are the error. -/
def cut : Nat → Mode → Position → List Char → Except (Position × List Char) (List Token)
  | _, _, _, [] => .ok []
  | 0, _, position, cs => .error (position, cs)
  | steps + 1, mode, position, cs =>
    match nextLexeme? mode cs with
    | none => .error (position, cs)
    | some lexeme => do
      let tokens ← cut steps (mode.after lexeme.kind)
        (advance position lexeme.kind lexeme.text) lexeme.rest
      match lexeme.kind with
      | none => return tokens
      | some kind => return ⟨kind, lexeme.text, position⟩ :: tokens

/-- The tokens of a source. -/
def tokens (cs : List Char) : Except (Position × List Char) (List Token) :=
  cut cs.length .line ⟨1, 1⟩ cs

end MipsFlow.Source
