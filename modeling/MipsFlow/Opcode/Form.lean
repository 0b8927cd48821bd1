import MipsFlow.Opcode
import MipsFlow.Reg

/-!
# Operand roles

For each opcode and number of operands that the assembler knows, a form says which operands are
written and which are read, and which registers are written or read besides. Memory operands are
not listed: their base is always read. A count without a form is a command that is not understood.
-/

namespace MipsFlow

/-- The roles of the operands of one command. -/
structure Form where
  /-- Positions of the operands that are written. -/
  defs : List Nat := []
  /-- Positions of the register operands that are read. -/
  uses : List Nat := []
  /-- Registers written without being named. -/
  impliedDefs : List Reg := []
  /-- Registers read without being named. -/
  impliedUses : List Reg := []
deriving DecidableEq, Repr

namespace Form

/-- Writes the first operand. -/
def define : Form := { defs := [0] }

/-- Reads the first operand. -/
def use : Form := { uses := [0] }

/-- Reads the first two operands. -/
def useBoth : Form := { uses := [0, 1] }

/-- Writes the first operand from the second. -/
def unary : Form := { defs := [0], uses := [1] }

/-- Writes the second operand from the first. -/
def unaryReversed : Form := { defs := [1], uses := [0] }

/-- Writes the first operand from the other two. -/
def binary : Form := { defs := [0], uses := [1, 2] }

/-- Writes the first operand from itself and the second. -/
def accumulate : Form := { defs := [0], uses := [0, 1] }

/-- Writes the multiplier's results from the first two operands. -/
def multiplier : Form := { uses := [0, 1], impliedDefs := [.hi, .lo] }

/-- Writes the multiplier's results from the second and third operand. -/
def multiplierAfterZero : Form := { uses := [1, 2], impliedDefs := [.hi, .lo] }

/-- Sets the condition flag from the first two operands. -/
def compare : Form := { uses := [0, 1], impliedDefs := [.flag] }

/-- Reads the condition flag. -/
def testFlag : Form := { impliedUses := [.flag] }

/-- Fetches the register `r`. -/
def fetch (r : Reg) : Form := { defs := [0], impliedUses := [r] }

/-- Sets the register `r`. -/
def put (r : Reg) : Form := { uses := [0], impliedDefs := [r] }

/-- Calls the first operand, leaving the return address in the link register. -/
def linkedCall : Form := { uses := [0], impliedDefs := [Reg.link] }

/-- Calls the system: arguments and the service number go in, results come out. -/
def system : Form :=
  { impliedDefs := [Reg.firstResult, Reg.secondResult]
    impliedUses := Reg.firstResult :: Reg.arguments }

end Form

/-- The families of commands that take their operands in the same ways. -/
inductive Family where
  /-- Stands alone. -/
  | bare
  /-- Stands alone and calls the system. -/
  | system
  /-- Stands alone or with a code that nothing reads. -/
  | coded
  /-- Accumulates into its first operand, or combines the other two into it. -/
  | arithmetic
  /-- Multiplies its two operands into the multiplier's registers. -/
  | multiply
  /-- Divides like `multiply`, or writes the quotient to a third operand. -/
  | divide
  /-- Combines its last two operands into the first. -/
  | remainder
  /-- Computes its first operand from the second. -/
  | unary
  /-- Computes its second operand from the first. -/
  | reversed
  /-- Like `unary`, and with a third operand that is read. -/
  | truncate
  /-- Fetches a register that has no name in the source. -/
  | fetch (r : Reg)
  /-- Sets a register that has no name in the source. -/
  | put (r : Reg)
  /-- Writes its first operand from memory or a literal. -/
  | load
  /-- Reads its first operand: a store, or a branch on one register. -/
  | single
  /-- Compares its two operands. -/
  | compare
  /-- Jumps to its operand. -/
  | jump
  /-- Calls its operand. -/
  | call
  /-- Calls its last operand, with the return address in the first if there are two. -/
  | callThrough
  /-- Branches on its first two operands. -/
  | branch
  /-- Branches on the condition flag. -/
  | flagBranch
deriving DecidableEq, Repr

/-- The family of an opcode. -/
def Opcode.family : Opcode → Family
  | .nop => .bare
  | .syscall => .system
  | .brk => .coded
  | .add | .addu | .addi | .addiu | .sub | .subu | .and | .andi | .or | .ori | .xor | .xori | .nor
  | .slt | .sltu | .slti | .sltiu | .sll | .srl | .sra | .sllv | .srlv | .srav | .mul
  | .addS | .addD | .subS | .subD | .mulS | .mulD | .divS | .divD => .arithmetic
  | .mult | .multu => .multiply
  | .div | .divu => .divide
  | .rem | .remu => .remainder
  | .neg | .negu | .not | .abs | .move | .mfc1 | .absS | .absD | .negS | .negD | .sqrtS | .sqrtD
  | .movS | .movD | .cvtSD | .cvtDS | .cvtSW | .cvtDW | .cvtWS | .cvtWD => .unary
  | .mtc1 => .reversed
  | .truncWS | .truncWD => .truncate
  | .mflo => .fetch .lo
  | .mfhi => .fetch .hi
  | .mtlo => .put .lo
  | .mthi => .put .hi
  | .li | .lui | .la | .lw | .lb | .lbu | .lh | .lhu | .ld | .lS | .lD | .lwc1 => .load
  | .sw | .sb | .sh | .sd | .sS | .sD | .swc1
  | .beqz | .bnez | .blez | .bgtz | .bltz | .bgez => .single
  | .cEqS | .cEqD | .cLtS | .cLtD | .cLeS | .cLeD => .compare
  | .j | .b | .jr => .jump
  | .jal | .bal => .call
  | .jalr => .callThrough
  | .beq | .bne | .beql | .bnel => .branch
  | .bc1t | .bc1f => .flagBranch

/-- The form of a family with the given number of operands. -/
def Family.form? : Family → Nat → Option Form
  | .bare, 0 => some {}
  | .system, 0 => some .system
  | .coded, 0 => some {}
  | .coded, 1 => some {}
  | .arithmetic, 2 => some .accumulate
  | .arithmetic, 3 => some .binary
  | .multiply, 2 => some .multiplier
  | .divide, 2 => some .multiplier
  | .divide, 3 => some .binary
  | .remainder, 3 => some .binary
  | .unary, 2 => some .unary
  | .reversed, 2 => some .unaryReversed
  | .truncate, 2 => some .unary
  | .truncate, 3 => some .binary
  | .fetch r, 1 => some (.fetch r)
  | .put r, 1 => some (.put r)
  | .load, 2 => some .define
  | .single, 2 => some .use
  | .compare, 2 => some .compare
  | .jump, 1 => some .use
  | .call, 1 => some .linkedCall
  | .callThrough, 1 => some .linkedCall
  | .callThrough, 2 => some .unary
  | .branch, 3 => some .useBoth
  | .flagBranch, 1 => some .testFlag
  | _, _ => none

end MipsFlow
