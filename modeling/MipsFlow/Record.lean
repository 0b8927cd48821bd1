import MipsFlow.Instr.Printer

/-!
# Instruction records

A record is an instruction in the form in which it crosses the library's border: its kind and the
kinds of its operands are numbers, and every field is there whether its kind uses it or not. The
numbers need not stand for anything. What can be said about a record without knowing its kind is
still said: its trailing comment and notes, and whether it equals another record.
-/

namespace MipsFlow

/-- The fields of an operand. -/
structure OperandRecord where
  kind : Nat
  reg : String
  imm : Int64
  sym : String
deriving DecidableEq, Repr

/-- The fields of an instruction. -/
structure Record where
  kind : Nat
  name : String
  args : List OperandRecord
  indented : Bool
  comment : String
  notes : List String
deriving DecidableEq, Repr

/-- The text of an operand; a memory place without a symbol has a numeric offset. -/
def OperandRecord.text (o : OperandRecord) : Except Fault String :=
  match o.kind with
  | 0 => .ok o.reg
  | 1 => .ok (Text.decimal o.imm.toInt)
  | 2 => .ok ((if o.sym = "" then Text.decimal o.imm.toInt else o.sym) ++ "(" ++ o.reg ++ ")")
  | 3 => .ok o.sym
  | kind => .error (.operandKind kind)

namespace Record

/-- The name of the record's kind. -/
def kindName (r : Record) : String :=
  match r.kind with
  | 0 => "label"
  | 1 => "directive"
  | 2 => "comment"
  | 3 => "command"
  | kind => "kind(" ++ Text.decimalNat kind ++ ")"

/-- The text of each operand. -/
def argTexts (r : Record) : Except Fault (List String) :=
  r.args.mapM OperandRecord.text

/-- The record as one line of plain text. -/
def text (r : Record) : Except Fault String :=
  match r.kind with
  | 0 => .ok (r.name ++ ":")
  | 1 => .ok r.name
  | 2 => .ok ("#" ++ r.name)
  | 3 => r.argTexts.map fun args =>
    if args.isEmpty then r.name else r.name ++ " " ++ ",".intercalate args
  | kind => .error (.instructionKind kind)

/-- The record alone on its line. A kind that does not exist leaves the line empty. -/
def lineStart (r : Record) : Except Fault String :=
  match r.kind with
  | 0 => .ok (r.name ++ ":")
  | 1 => .ok ("\t" ++ r.name)
  | 2 => .ok (Printer.commentLine r.name r.indented)
  | 3 => r.argTexts.map (Printer.commandLine r.name)
  | _ => .ok ""

/-- The source line of a record, without the line break. -/
def line (r : Record) : Except Fault String :=
  r.lineStart.map (· ++ Printer.trailer r.comment r.notes)

/-- The source text of a sequence of records. -/
def listing (rs : List Record) : Except Fault String :=
  (rs.mapM fun (r : Record) => r.line.map (· ++ "\n")).map String.join

/-- The two records say the same; comments and notes do not matter. -/
def sameText (r s : Record) : Bool :=
  r.kind = s.kind && r.name = s.name && r.indented = s.indented && r.args = s.args

/-- The number of commands and labels. -/
def codeSize (rs : List Record) : Nat :=
  rs.countP fun r => r.kind = 3 || r.kind = 0

end Record

end MipsFlow
