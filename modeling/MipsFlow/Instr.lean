import MipsFlow.Operand
import MipsFlow.Opcode.Form

/-!
# Instructions

An instruction is one item of a program: a label, a directive, a comment of its own, or a command.
It has an identity that stays with it through every change, the comment that stood behind it in
the source, and the notes that changes left on it.
-/

namespace MipsFlow

/-- The mnemonic of a command: a known opcode, or a word that names none. -/
inductive Mnemonic where
  | known (op : Opcode)
  | unknown (name : String)
deriving DecidableEq, Repr

namespace Mnemonic

/-- The mnemonic that a word stands for. -/
def ofName (s : String) : Mnemonic :=
  match Opcode.ofName? s with
  | some op => .known op
  | none => .unknown s

/-- What stands for a command that is built without a known opcode. -/
def unnamed : Mnemonic := .unknown "<unknown>"

/-- The mnemonic as it is written. -/
def name : Mnemonic → String
  | .known op => op.name
  | .unknown name => name

/-- The opcode, if the mnemonic is known. -/
def op? : Mnemonic → Option Opcode
  | .known op => some op
  | .unknown _ => none

end Mnemonic

/-- A command: what to do, and with what. -/
structure Command where
  mnemonic : Mnemonic
  args : List Operand
deriving DecidableEq, Repr

/-- What an instruction says. -/
inductive Content where
  | label (name : String)
  | directive (text : String)
  /-- A comment that stands alone, and whether it was indented. -/
  | comment (text : String) (indented : Bool)
  | command (c : Command)
deriving DecidableEq, Repr

/-- One item of a program. -/
structure Instr where
  /-- The identity: never given to another instruction of the program. -/
  id : Nat
  content : Content
  /-- The text of the comment that follows on the same line; empty if there is none. -/
  comment : String := ""
  /-- What the optimizer has to say about the instruction. -/
  notes : List String := []
deriving DecidableEq, Repr

namespace Content

/-- The word or text of the instruction: label name, directive, comment text or mnemonic. -/
def name : Content → String
  | .label name => name
  | .directive text => text
  | .comment text _ => text
  | .command c => c.mnemonic.name

/-- The content with its word exchanged for that of an opcode. -/
def withMnemonic (m : Mnemonic) : Content → Content
  | .label _ => .label m.name
  | .directive _ => .directive m.name
  | .comment _ indented => .comment m.name indented
  | .command c => .command { c with mnemonic := m }

end Content

/-! ## Building commands -/

namespace Command

/-- A command with a known opcode. -/
def ofOpcode (op : Opcode) (args : List Operand) : Command := ⟨.known op, args⟩

/-- The command that copies `src` to `dst`. -/
def copy (dst src : Reg) : Command := ofOpcode .move [.reg dst, .reg src]

/-- The command that loads a literal. -/
def loadImm (dst : Reg) (value : Int64) : Command := ofOpcode .li [.reg dst, .imm value]

end Command

namespace Instr

/-- A command without comment or notes. -/
def ofCommand (id : Nat) (c : Command) : Instr := { id, content := .command c }

/-- A copy of the instruction under a new identity, without the notes. -/
def clone (p : Instr) (id : Nat) : Instr := { p with id, notes := [] }

/-- The command of the instruction, if it is one. -/
def command? (p : Instr) : Option Command :=
  match p.content with
  | .command c => some c
  | _ => none

/-- The name of the label, if the instruction is one. -/
def label? (p : Instr) : Option String :=
  match p.content with
  | .label name => some name
  | _ => none

/-- The instruction is a label. -/
def isLabel (p : Instr) : Bool := p.label?.isSome

/-- The instruction is a command. -/
def isCommand (p : Instr) : Bool := p.command?.isSome

/-- The instruction with another command. -/
def withCommand (p : Instr) (c : Command) : Instr := { p with content := .command c }

/-- The two instructions say the same; identity, comment and notes do not matter. -/
def sameText (p q : Instr) : Bool := p.content = q.content

/-! ## Notes -/

/-- Adds a note, unless it is there already. -/
def note (p : Instr) (message : String) : Instr :=
  if p.notes.contains message then p else { p with notes := p.notes ++ [message] }

/-- Adds several notes, in order. -/
def annotate (p : Instr) (messages : List String) : Instr := messages.foldl note p

end Instr

/-! ## Size -/

/-- The number of commands and labels. -/
def codeSize (code : List Instr) : Nat :=
  code.countP fun p => p.isCommand || p.isLabel

end MipsFlow
