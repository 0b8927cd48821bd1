import MipsFlow.Graph

/-!
# Interpretations of commands

An interpretation gives every command a meaning that respects the table of operand roles. A known
command computes from its *inputs*: the values of the registers that it reads, its literals and
symbols, and memory. It writes what the table says that it may write, and nothing else. The names
of its registers are not part of the inputs, so two commands with the same inputs compute the same
values, wherever they put them. A foreign command may look at the whole state, and may change the
registers that it names and memory.

`Interpretation.exec` is the meaning of one command, `execAll` that of straight-line code, `leave`
the decision that the jump at the end of a block takes, and `visit` the blocks that a run of a
graph goes through, with the state at the entry of each of them.

The zero register reads as `zero` in every state, and no command changes it.
-/

namespace MipsFlow

/-- The contents of the registers, and memory. -/
structure MachineState (V M : Type) where
  regs : Reg → V
  mem : M

/-- What a command sees of one of its operands. -/
inductive Seen (V : Type) where
  /-- A register that is read, as its value. -/
  | value (v : V)
  /-- A register that is not read. -/
  | unread
  | literal (n : Int64)
  /-- A memory place, with the value of its base. -/
  | place (offset : Offset) (base : V)
  | symbol (text : String)
deriving DecidableEq

/-- All that the effect of a known command depends on. -/
structure Inputs (V M : Type) where
  op? : Option Opcode
  operands : List (Seen V)
  /-- The values of the registers that are read without being named. -/
  implied : List V
  mem : M

/-- A meaning for every command. -/
structure Interpretation (V M : Type) where
  /-- The value of the zero register. -/
  zero : V
  /-- What a known command writes to the operand that it defines. -/
  result : Inputs V M → V
  /-- What a known command leaves in a register that it may write without naming it. -/
  implied : Inputs V M → Reg → V
  /-- What a known command that may write memory makes of it. -/
  memory : Inputs V M → M
  /-- What a foreign command makes of the state. -/
  foreign : Command → MachineState V M → MachineState V M
  /-- The block that a known jump at the end of the given block goes to, if it is in the graph. -/
  goes : Nat → Inputs V M → Option Nat
  /-- The same for a foreign jump. -/
  foreignGoes : Nat → Command → MachineState V M → Option Nat

/-- The command may write memory. -/
def Command.writesMemory (c : Command) : Bool := c.isStore || c.leavesCode

namespace MachineState

variable {V M : Type}

/-- Writes a register. The zero register stays as it is. -/
def set (s : MachineState V M) (r : Reg) (v : V) : MachineState V M :=
  { s with regs := fun q => if q = r ∧ ¬ r.isZero then v else s.regs q }

@[ext] theorem ext {s t : MachineState V M} (regs : ∀ r, s.regs r = t.regs r)
    (mem : s.mem = t.mem) : s = t := by
  obtain ⟨sRegs, sMem⟩ := s
  obtain ⟨tRegs, tMem⟩ := t
  obtain rfl : sRegs = tRegs := funext regs
  obtain rfl : sMem = tMem := mem
  rfl

@[simp] theorem set_mem (s : MachineState V M) (r : Reg) (v : V) : (s.set r v).mem = s.mem := rfl

end MachineState

namespace Interpretation

variable {V M : Type} (I : Interpretation V M)

/-! ## One command -/

/-- The value of a register. -/
def read (s : MachineState V M) (r : Reg) : V := if r.isZero then I.zero else s.regs r

/-- What a command with the given roles sees of the operand at a position. -/
def seenAt (form? : Option Form) (s : MachineState V M) (i : Nat) : Operand → Seen V
  | .reg r => if form?.all (·.uses.contains i) then .value (I.read s r) else .unread
  | .imm n => .literal n
  | .mem offset base => .place offset (I.read s base)
  | .sym text => .symbol text

/-- What a command sees of its operands. -/
def seen (c : Command) (s : MachineState V M) : List (Seen V) :=
  c.args.zipIdx.map fun (o, i) => I.seenAt c.form? s i o

/-- The inputs of a command. -/
def inputs (c : Command) (s : MachineState V M) : Inputs V M :=
  { op? := c.op?
    operands := I.seen c s
    implied := (c.form?.elim [] (·.impliedUses)).map (I.read s)
    mem := s.mem }

/-- What a known command with the given roles leaves in a register. -/
def written (c : Command) (form : Form) (s : MachineState V M) (r : Reg) : V :=
  if r ∈ c.regsAt form.defs then I.result (I.inputs c s)
  else if r ∈ c.clobbers then I.implied (I.inputs c s) r
  else s.regs r

/-- The state after a command. -/
def exec (c : Command) (s : MachineState V M) : MachineState V M :=
  match c.form? with
  | some form =>
    { regs := fun r => if r.isZero then s.regs r else I.written c form s r
      mem := if c.writesMemory then I.memory (I.inputs c s) else s.mem }
  | none =>
    { regs := fun r => if r ∈ c.clobbers ∧ ¬ r.isZero then (I.foreign c s).regs r else s.regs r
      mem := (I.foreign c s).mem }

/-- The block that a jump goes to. -/
def decide (here : Nat) (c : Command) (s : MachineState V M) : Option Nat :=
  match c.form? with
  | some _ => I.goes here (I.inputs c s)
  | none => I.foreignGoes here c s

/-! ## Code -/

/-- The state after an instruction; only commands do anything. -/
def execInstr (p : Instr) (s : MachineState V M) : MachineState V M :=
  p.command?.elim s (I.exec · s)

/-- The state after straight-line code. -/
def execAll : List Instr → MachineState V M → MachineState V M
  | [], s => s
  | p :: rest, s => execAll rest (I.execInstr p s)

/-- The decision of an instruction, if it is a jump. -/
def decideInstr (here : Nat) (p : Instr) (s : MachineState V M) : Option (Option Nat) :=
  (p.command?.filter Command.isJump).map (I.decide here · s)

/-- The decision of the last jump in the code of a block. -/
def leave (here : Nat) : List Instr → MachineState V M → Option (Option Nat)
  | [], _ => none
  | p :: rest, s => (leave here rest (I.execInstr p s)).or (I.decideInstr here p s)

/-! ## Runs of a graph -/

/-- The block that control goes to from the end of a block, if it stays in the graph. -/
def next (b : Block) (s : MachineState V M) : Option Nat :=
  ((I.leave b.id b.code s).getD (some (b.id + 1))).filter b.succ.contains

/-- One block of a run: the next block, and the state at its entry. -/
def hop (g : Graph) (at_ : Nat × MachineState V M) : Option (Nat × MachineState V M) :=
  (g.block? at_.1).bind fun b => (I.next b at_.2).map (·, I.execAll b.code at_.2)

/-- The block that a run comes to after some blocks, with the state at its entry. -/
def visit (g : Graph) (start : Nat) (s : MachineState V M) : Nat → Option (Nat × MachineState V M)
  | 0 => some (start, s)
  | n + 1 => (visit g start s n).bind (I.hop g)

end Interpretation

end MipsFlow
