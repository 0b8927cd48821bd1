/-!
# Opcodes

The commands that are known, their mnemonics, and what kind of thing each of them does. The roles
of their operands are in `MipsFlow.Opcode.Form`.
-/

namespace MipsFlow

/-- A known command. -/
inductive Opcode where
  | nop | syscall | brk | add | addu | addi | addiu | sub | subu | and | andi | or | ori | xor
  | xori | nor | slt | sltu | slti | sltiu | sll | srl | sra | sllv | srlv | srav | mul | mult
  | multu | div | divu | rem | remu | neg | negu | not | abs | mflo | mfhi | mtlo | mthi | move
  | li | lui | la | lw | lb | lbu | lh | lhu | ld | lS | lD | lwc1 | sw | sb | sh | sd | sS | sD
  | swc1 | mfc1 | mtc1 | addS | addD | subS | subD | mulS | mulD | divS | divD | absS | absD
  | negS | negD | sqrtS | sqrtD | movS | movD | cvtSD | cvtDS | cvtSW | cvtDW | cvtWS | cvtWD
  | truncWS | truncWD | cEqS | cEqD | cLtS | cLtD | cLeS | cLeD | j | b | jal | bal | jr | jalr
  | beq | bne | beql | bnel | beqz | bnez | blez | bgtz | bltz | bgez | bc1t | bc1f
deriving DecidableEq, Repr, Inhabited

/-- What kind of thing a command does. -/
inductive Trait where
  /-- Transfers control: jumps, branches, calls and returns. -/
  | jump
  /-- Transfers control only on a condition. -/
  | conditional
  /-- Is a call that is expected to return. -/
  | call
  /-- Computes. -/
  | arith
  /-- Loads a register, from memory or with a literal. -/
  | load
  /-- Writes memory. -/
  | store
  /-- Copies a register. -/
  | move
  /-- Shifts. -/
  | shift
  /-- May stop the program. -/
  | trap
  /-- Gives the same result with its two sources exchanged. -/
  | commutes
  /-- Hands over to the system. -/
  | barrier
deriving DecidableEq, Repr

namespace Trait

/-- Every trait, in the order of their bits. -/
def all : List Trait :=
  [.jump, .conditional, .call, .arith, .load, .store, .move, .shift, .trap, .commutes, .barrier]

/-- The bit that stands for the trait in a set written as a number. -/
def bit (t : Trait) : Nat := 1 <<< all.idxOf t

end Trait

namespace Opcode

/-- Every opcode, in the order of their codes. -/
def all : List Opcode := [
  .nop, .syscall, .brk, .add, .addu, .addi, .addiu, .sub, .subu, .and, .andi, .or, .ori, .xor,
  .xori, .nor, .slt, .sltu, .slti, .sltiu, .sll, .srl, .sra, .sllv, .srlv, .srav, .mul, .mult,
  .multu, .div, .divu, .rem, .remu, .neg, .negu, .not, .abs, .mflo, .mfhi, .mtlo, .mthi, .move,
  .li, .lui, .la, .lw, .lb, .lbu, .lh, .lhu, .ld, .lS, .lD, .lwc1, .sw, .sb, .sh, .sd, .sS, .sD,
  .swc1, .mfc1, .mtc1, .addS, .addD, .subS, .subD, .mulS, .mulD, .divS, .divD, .absS, .absD,
  .negS, .negD, .sqrtS, .sqrtD, .movS, .movD, .cvtSD, .cvtDS, .cvtSW, .cvtDW, .cvtWS, .cvtWD,
  .truncWS, .truncWD, .cEqS, .cEqD, .cLtS, .cLtD, .cLeS, .cLeD, .j, .b, .jal, .bal, .jr, .jalr,
  .beq, .bne, .beql, .bnel, .beqz, .bnez, .blez, .bgtz, .bltz, .bgez, .bc1t, .bc1f]

/-- The number of an opcode; zero is left for the commands that are not known. -/
def code (op : Opcode) : Nat := all.idxOf op + 1

/-- The mnemonic. -/
def name : Opcode → String
  | .nop => "nop"
  | .syscall => "syscall"
  | .brk => "break"
  | .add => "add"
  | .addu => "addu"
  | .addi => "addi"
  | .addiu => "addiu"
  | .sub => "sub"
  | .subu => "subu"
  | .and => "and"
  | .andi => "andi"
  | .or => "or"
  | .ori => "ori"
  | .xor => "xor"
  | .xori => "xori"
  | .nor => "nor"
  | .slt => "slt"
  | .sltu => "sltu"
  | .slti => "slti"
  | .sltiu => "sltiu"
  | .sll => "sll"
  | .srl => "srl"
  | .sra => "sra"
  | .sllv => "sllv"
  | .srlv => "srlv"
  | .srav => "srav"
  | .mul => "mul"
  | .mult => "mult"
  | .multu => "multu"
  | .div => "div"
  | .divu => "divu"
  | .rem => "rem"
  | .remu => "remu"
  | .neg => "neg"
  | .negu => "negu"
  | .not => "not"
  | .abs => "abs"
  | .mflo => "mflo"
  | .mfhi => "mfhi"
  | .mtlo => "mtlo"
  | .mthi => "mthi"
  | .move => "move"
  | .li => "li"
  | .lui => "lui"
  | .la => "la"
  | .lw => "lw"
  | .lb => "lb"
  | .lbu => "lbu"
  | .lh => "lh"
  | .lhu => "lhu"
  | .ld => "ld"
  | .lS => "l.s"
  | .lD => "l.d"
  | .lwc1 => "lwc1"
  | .sw => "sw"
  | .sb => "sb"
  | .sh => "sh"
  | .sd => "sd"
  | .sS => "s.s"
  | .sD => "s.d"
  | .swc1 => "swc1"
  | .mfc1 => "mfc1"
  | .mtc1 => "mtc1"
  | .addS => "add.s"
  | .addD => "add.d"
  | .subS => "sub.s"
  | .subD => "sub.d"
  | .mulS => "mul.s"
  | .mulD => "mul.d"
  | .divS => "div.s"
  | .divD => "div.d"
  | .absS => "abs.s"
  | .absD => "abs.d"
  | .negS => "neg.s"
  | .negD => "neg.d"
  | .sqrtS => "sqrt.s"
  | .sqrtD => "sqrt.d"
  | .movS => "mov.s"
  | .movD => "mov.d"
  | .cvtSD => "cvt.s.d"
  | .cvtDS => "cvt.d.s"
  | .cvtSW => "cvt.s.w"
  | .cvtDW => "cvt.d.w"
  | .cvtWS => "cvt.w.s"
  | .cvtWD => "cvt.w.d"
  | .truncWS => "trunc.w.s"
  | .truncWD => "trunc.w.d"
  | .cEqS => "c.eq.s"
  | .cEqD => "c.eq.d"
  | .cLtS => "c.lt.s"
  | .cLtD => "c.lt.d"
  | .cLeS => "c.le.s"
  | .cLeD => "c.le.d"
  | .j => "j"
  | .b => "b"
  | .jal => "jal"
  | .bal => "bal"
  | .jr => "jr"
  | .jalr => "jalr"
  | .beq => "beq"
  | .bne => "bne"
  | .beql => "beql"
  | .bnel => "bnel"
  | .beqz => "beqz"
  | .bnez => "bnez"
  | .blez => "blez"
  | .bgtz => "bgtz"
  | .bltz => "bltz"
  | .bgez => "bgez"
  | .bc1t => "bc1t"
  | .bc1f => "bc1f"

/-- The opcode with the given mnemonic. -/
def ofName? (s : String) : Option Opcode := all.find? fun op => op.name = s

/-- The traits of an opcode. -/
def traits : Opcode → List Trait
  | .nop | .mflo | .mfhi | .mtlo | .mthi | .mfc1 | .mtc1 | .movS | .movD | .cvtSD
  | .cvtDS | .cvtSW | .cvtDW | .cvtWS | .cvtWD | .truncWS | .truncWD | .cEqS | .cEqD
  | .cLtS | .cLtD | .cLeS | .cLeD => []
  | .syscall | .brk => [.barrier]
  | .add => [.arith, .trap, .commutes]
  | .addu | .and | .or | .xor | .nor | .mul | .mult | .multu | .addS | .addD | .mulS
  | .mulD => [.arith, .commutes]
  | .addi | .sub | .neg | .abs => [.arith, .trap]
  | .addiu | .subu | .andi | .ori | .xori | .slt | .sltu | .slti | .sltiu | .div | .divu
  | .rem | .remu | .negu | .not | .subS | .subD | .divS | .divD | .absS | .absD | .negS
  | .negD | .sqrtS | .sqrtD => [.arith]
  | .sll | .srl | .sra | .sllv | .srlv | .srav => [.arith, .shift]
  | .move => [.move]
  | .li | .lui | .la | .lw | .lb | .lbu | .lh | .lhu | .ld | .lS | .lD | .lwc1 => [.load]
  | .sw | .sb | .sh | .sd | .sS | .sD | .swc1 => [.store]
  | .j | .b | .jr => [.jump]
  | .jal | .bal | .jalr => [.jump, .call]
  | .beq | .bne | .beql | .bnel | .beqz | .bnez | .blez | .bgtz | .bltz | .bgez | .bc1t
  | .bc1f => [.jump, .conditional]

/-- The opcode has the trait. -/
def has (op : Opcode) (t : Trait) : Bool := op.traits.contains t

/-- The traits as a number, one bit for each. -/
def traitBits (op : Opcode) : Nat := op.traits.foldl (fun bits t => bits + t.bit) 0

/-- The branch that is taken on exactly the opposite condition. -/
def inverse? : Opcode → Option Opcode
  | .beq => some .bne
  | .bne => some .beq
  | .beqz => some .bnez
  | .bnez => some .beqz
  | .blez => some .bgtz
  | .bgtz => some .blez
  | .bltz => some .bgez
  | .bgez => some .bltz
  | .bc1t => some .bc1f
  | .bc1f => some .bc1t
  | _ => none

end Opcode

end MipsFlow
