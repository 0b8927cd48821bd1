import MipsFlow.Opcode

/-!
# Words

Integer registers hold words of 32 bits. The operations that the optimizer evaluates itself are
those of the machine: arithmetic modulo `2 ^ 32`, except that a result is missing where the
machine would stop the program, or leaves the result undefined.
-/

namespace MipsFlow

/-- A machine word. -/
abbrev Word := BitVec 32

namespace Word

/-- The low 32 bits of a literal. -/
def ofImm (value : Int64) : Word := value.toBitVec.setWidth 32

/-- The word as a signed literal. -/
def toImm (w : Word) : Int64 := Int64.ofInt w.toInt

/-- The word of a signed result, if it has one. -/
def ofInt? (v : Int) : Option Word :=
  if Int32.minValue.toInt ≤ v ∧ v ≤ Int32.maxValue.toInt then some (BitVec.ofInt 32 v) else none

/-- The word one or zero. -/
def ofBool (b : Bool) : Word := if b then 1 else 0

/-- The quotient of the least word by minus one does not fit a word. -/
def divisionOverflows (x y : Word) : Bool := x = BitVec.intMin 32 && y = -1

/-- The result of an operation on one word. -/
def unary? (op : Opcode) (x : Word) : Option Word :=
  match op with
  | .negu => some (-x)
  | .not => some (~~~x)
  | .neg => if x = BitVec.intMin 32 then none else some (-x)
  | _ => none

/-- The result of an operation on two words. -/
def binary? (op : Opcode) (x y : Word) : Option Word :=
  match op with
  | .add | .addi => ofInt? (x.toInt + y.toInt)
  | .sub => ofInt? (x.toInt - y.toInt)
  | .addu | .addiu => some (x + y)
  | .subu => some (x - y)
  | .mul => some (x * y)
  | .and | .andi => some (x &&& y)
  | .or | .ori => some (x ||| y)
  | .xor | .xori => some (x ^^^ y)
  | .nor => some (~~~(x ||| y))
  | .slt | .slti => some (ofBool (x.slt y))
  | .sltu | .sltiu => some (ofBool (x.ult y))
  | .sll | .sllv => some (x <<< (y.toNat % 32))
  | .srl | .srlv => some (x >>> (y.toNat % 32))
  | .sra | .srav => some (x.sshiftRight (y.toNat % 32))
  | .div => if y = 0 ∨ divisionOverflows x y then none else some (x.sdiv y)
  | .rem => if y = 0 ∨ divisionOverflows x y then none else some (x.srem y)
  | .divu => if y = 0 then none else some (x / y)
  | .remu => if y = 0 then none else some (x % y)
  | _ => none

/-- High and low word of a double word. -/
def split (d : BitVec 64) : Word × Word := (d.extractLsb' 32 32, d.setWidth 32)

/-- What an operation leaves in the multiplier's high and low register: the two halves of a
product, or remainder and quotient. -/
def multiplier? (op : Opcode) (x y : Word) : Option (Word × Word) :=
  match op with
  | .mult => some (split (x.signExtend 64 * y.signExtend 64))
  | .multu => some (split (x.setWidth 64 * y.setWidth 64))
  | .div => if y = 0 ∨ divisionOverflows x y then none else some (x.srem y, x.sdiv y)
  | .divu => if y = 0 then none else some (x % y, x / y)
  | _ => none

end Word

end MipsFlow
