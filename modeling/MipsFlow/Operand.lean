import MipsFlow.Reg
import MipsFlow.Text.Numeral

/-!
# Operands

An operand is a register, a number, a symbol, or a memory place: an offset from the address in a
base register. Whatever is none of the others is a symbol, so that relocations and expressions
pass through unread; only an empty text, or a dollar sign before a digit, is refused.
-/

namespace MipsFlow

/-- The distance of a memory place from its base: a number, or text for the assembler. -/
inductive Offset where
  | number (value : Int64)
  | symbol (text : String)
deriving DecidableEq, Repr

/-- An argument of a command. -/
inductive Operand where
  | reg (r : Reg)
  | imm (value : Int64)
  | mem (offset : Offset) (base : Reg)
  | sym (text : String)
deriving DecidableEq, Repr

/-! ## Immediate fields -/

/-- The number fits a signed immediate field of the machine's commands. -/
def fitsSigned16 (v : Int) : Bool := -32768 ≤ v && v ≤ 32767

/-- The number fits an unsigned immediate field. -/
def fitsUnsigned16 (v : Int) : Bool := 0 ≤ v && v ≤ 65535

/-! ## Texts -/

/-- Why a text is not an operand. -/
inductive OperandError where
  | empty
  | invalidRegister (text : String)
deriving DecidableEq, Repr

/-- The text of an operand error. -/
def OperandError.message : OperandError → String
  | .empty => "empty operand"
  | .invalidRegister text => "invalid register " ++ Text.quote text

/-- The text of an offset. -/
def Offset.text : Offset → String
  | .number value => Text.decimal value.toInt
  | .symbol text => text

namespace Operand

/-- The text of an operand. -/
def text : Operand → String
  | .reg r => r.name
  | .imm value => Text.decimal value.toInt
  | .mem offset base => offset.text ++ "(" ++ base.name ++ ")"
  | .sym text => text

/-- The register that is read when the operand is evaluated. -/
def base? : Operand → Option Reg
  | .reg r => some r
  | .mem _ base => some base
  | .imm _ | .sym _ => none

/-- The register, if the operand is one. -/
def reg? : Operand → Option Reg
  | .reg r => some r
  | _ => none

/-- The operand is exactly the register `r`. -/
def isReg (o : Operand) (r : Reg) : Bool := o.reg? = some r

/-- The operand with its register, or the base of its memory place, exchanged for `r`. -/
def withBase (o : Operand) (r : Reg) : Operand :=
  match o with
  | .reg _ => .reg r
  | .mem offset _ => .mem offset r
  | other => other

/-! ## Reading -/

/-- Splits `offset(base)` at its last opening parenthesis. -/
def splitMemory? (cs : List Char) : Option (List Char × List Char) :=
  match cs.reverse with
  | ')' :: before =>
    match before.dropWhile (· ≠ '(') with
    | '(' :: offset => some (offset.reverse, (before.takeWhile (· ≠ '(')).reverse)
    | _ => none
  | _ => none

/-- Reads an offset. An absent one is zero, and what is not a numeral is symbolic. -/
def readOffset (cs : List Char) : Offset :=
  if cs.isEmpty then .number 0
  else
    match Text.Numeral.signed cs with
    | .ok value => .number (Int64.ofInt value)
    | .error _ => .symbol (String.ofList cs)

/-- Reads a memory place whose base is a register. -/
def readMemory? (cs : List Char) : Option Operand :=
  (splitMemory? cs).bind fun (offset, base) =>
    (Reg.ofName? (String.ofList base)).map (.mem (readOffset offset))

/-- Reads a number. Values from `2 ^ 63` up stand for the signed word with the same bits. -/
def readNumber? (cs : List Char) : Option Int64 :=
  match Text.Numeral.signed cs with
  | .ok value => some (Int64.ofInt value)
  | .error _ =>
    match Text.Numeral.unsigned cs with
    | .ok value => some (Int64.ofNat value)
    | .error _ => none

/-- The text looks like a general register: a dollar sign and a digit. -/
def looksNumbered : List Char → Bool
  | '$' :: c :: _ => c.isDigit
  | _ => false

/-- Reads the text of an operand. -/
def ofText (s : String) : Except OperandError Operand :=
  let cs := s.toList
  if cs.isEmpty then .error .empty
  else
    match readMemory? cs with
    | some operand => .ok operand
    | none =>
      match Reg.ofName? s with
      | some r => .ok (.reg r)
      | none =>
        match readNumber? cs with
        | some value => .ok (.imm value)
        | none => if looksNumbered cs then .error (.invalidRegister s) else .ok (.sym s)

end Operand

end MipsFlow
