import MipsFlow.Instr.Roles

/-!
# Source lines

The layout in which programs are written: labels at the margin, everything else behind a tab, the
operands behind another tab unless the mnemonic takes eight bytes or more. The comment of an
instruction and each of its notes follow on the same line, two tabs further.
-/

namespace MipsFlow

namespace Printer

/-- What separates a mnemonic from its operands. -/
def operandGap (mnemonic : String) : String :=
  if mnemonic.utf8ByteSize < 8 then "\t" else " "

/-- A command line, from the mnemonic and the text of each operand. -/
def commandLine (mnemonic : String) (args : List String) : String :=
  "\t" ++ mnemonic ++
    if args.isEmpty then "" else operandGap mnemonic ++ ",".intercalate args

/-- The line of a stand-alone comment. -/
def commentLine (text : String) (indented : Bool) : String :=
  (if indented then "\t#" else "#") ++ text

/-- The comment and the notes behind an instruction. -/
def trailer (comment : String) (notes : List String) : String :=
  (if comment = "" then "" else "\t\t#" ++ comment) ++ String.join (notes.map ("\t\t# " ++ ·))

end Printer

/-- The instruction alone on its line, without comment and notes. -/
def Content.line : Content → String
  | .label name => name ++ ":"
  | .directive text => "\t" ++ text
  | .comment text indented => Printer.commentLine text indented
  | .command c => Printer.commandLine c.mnemonic.name (c.args.map Operand.text)

/-- The source line of an instruction, without the line break. -/
def Instr.line (p : Instr) : String :=
  p.content.line ++ Printer.trailer p.comment p.notes

/-- The source text of a sequence of instructions, each on a line of its own. -/
def listing (code : List Instr) : String :=
  String.join (code.map fun p => p.line ++ "\n")

end MipsFlow
