import MipsFlow.Instr

/-!
# What commands read and write

The roles of a command's operands decide which registers it definitely writes, which it may
write, and which it reads. A command whose mnemonic, or whose number of operands, is not in the
table is *foreign*: it may read and write any register it names.
-/

namespace MipsFlow

/-- A position in the operand list where a register is read. -/
structure ReadSite where
  index : Nat
  reg : Reg
deriving DecidableEq, Repr

namespace Command

/-! ## Classification -/

/-- The opcode, if the mnemonic is known. -/
def op? (c : Command) : Option Opcode := c.mnemonic.op?

/-- The command has the trait. -/
def has (c : Command) (t : Trait) : Bool := c.op?.any (·.has t)

/-- The command transfers control. -/
def isJump (c : Command) : Bool := c.has .jump

/-- The command is a conditional branch. -/
def isBranch (c : Command) : Bool := c.has .conditional

/-- The command is a call that is expected to return. -/
def isCall (c : Command) : Bool := c.has .call

/-- The command computes. -/
def isArith (c : Command) : Bool := c.has .arith

/-- The command writes memory. -/
def isStore (c : Command) : Bool := c.has .store

/-- The command shifts. -/
def isShift (c : Command) : Bool := c.has .shift

/-- The command loads a register. -/
def isLoad (c : Command) : Bool := c.has .load

/-- The command may run code that is not in sight: a call, or a request to the system. -/
def leavesCode (c : Command) : Bool := c.has .call || c.has .barrier

/-- Destination and source of a plain register copy. -/
def copy? (c : Command) : Option (Reg × Reg) :=
  match c.op?, c.args with
  | some .move, [.reg dst, .reg src] => some (dst, src)
  | _, _ => none

/-- The command reads memory through an `offset(base)` operand. -/
def readsMemory (c : Command) : Bool :=
  c.isLoad && c.op? != some .la &&
    match c.args with
    | [_, .mem _ _] => true
    | _ => false

/-- The command returns to the caller: a jump to the link register. -/
def isReturn (c : Command) : Bool :=
  (c.op? = some .jr || c.op? = some .j) && c.args = [.reg Reg.link]

/-- Control goes where a register other than the link register says. -/
def isIndirect (c : Command) : Bool :=
  c.isJump && !c.isReturn && !c.isBranch &&
    match c.args.getLast? with
    | some (.reg _) => true
    | _ => false

/-- The label that a jump goes to, if its last operand is a symbol. -/
def target? (c : Command) : Option String :=
  if c.isJump then
    match c.args.getLast? with
    | some (.sym label) => some label
    | _ => none
  else none

/-- The command is an unconditional jump to a label. -/
def isPlainJump (c : Command) : Bool :=
  (c.op? = some .j || c.op? = some .b) && c.target?.isSome

/-- The command divides into the multiplier's registers. With three operands it does so if the
first one is the zero register. -/
def isMultiplierDivision (c : Command) : Bool :=
  (c.op? = some .div || c.op? = some .divu) &&
    match c.args with
    | [_, _] => true
    | [first, _, _] => first.isReg Reg.zero
    | _ => false

/-- The roles of the operands. -/
def form? (c : Command) : Option Form :=
  if c.isMultiplierDivision && c.args.length = 3 then some .multiplierAfterZero
  else c.op?.bind fun op => op.family.form? c.args.length

/-- Nothing is known about what the command does with its operands. -/
def isForeign (c : Command) : Bool := c.form?.isNone

/-- The command has no effect besides what it writes to registers. -/
def isPure (c : Command) : Bool :=
  !c.isForeign && !c.has .jump && !c.has .store && !c.has .trap && !c.has .barrier

/-! ## Registers written and read -/

/-- The register operands at the given positions. -/
def regsAt (c : Command) (positions : List Nat) : List Reg :=
  positions.filterMap fun i => (c.args[i]?).bind Operand.reg?

/-- The registers that are definitely written, those of the operands first. -/
def defs (c : Command) : List Reg :=
  match c.form? with
  | none => []
  | some form => (c.regsAt form.defs ++ form.impliedDefs).eraseDups

/-- Every register that may be written. A foreign command may write all that it names, and code
out of sight all that a caller has to save. -/
def clobbers (c : Command) : List Reg :=
  if c.isForeign then (c.args.filterMap Operand.reg?).eraseDups
  else if c.leavesCode then (c.defs ++ Reg.callerSaved).eraseDups
  else c.defs

/-- The operand at a position is read: the base of a memory place always, a register if its
position has that role, or if nothing is known about the command. -/
def readAt? (form? : Option Form) (i : Nat) : Operand → Option Reg
  | .mem _ base => some base
  | .reg r => if form?.all (·.uses.contains i) then some r else none
  | .imm _ | .sym _ => none

/-- The positions where a register is read, in operand order. -/
def readSites (c : Command) : List ReadSite :=
  c.args.zipIdx.filterMap fun (o, i) => (readAt? c.form? i o).map (⟨i, ·⟩)

/-- Every register that is read, those of the operands first. A return reads the results and the
registers that have to be kept. -/
def uses (c : Command) : List Reg :=
  (c.readSites.map (·.reg) ++ (c.form?.elim [] (·.impliedUses)) ++
    if c.isReturn then Reg.results ++ Reg.calleeSaved else []).eraseDups

/-- The number of operand positions that read `r`. -/
def readCount (c : Command) (r : Reg) : Nat := c.readSites.countP (·.reg = r)

/-- Reads `target` wherever an operand read `source`. -/
def renameReads (c : Command) (source target : Reg) : Command :=
  { c with
    args := c.args.zipIdx.map fun (o, i) =>
      if readAt? c.form? i o = some source then o.withBase target else o }

/-! ## Text -/

/-- The operands, separated by commas. -/
def argText (c : Command) : String := ",".intercalate (c.args.map Operand.text)

/-- The command as one line of plain text. -/
def text (c : Command) : String :=
  if c.args.isEmpty then c.mnemonic.name else c.mnemonic.name ++ " " ++ c.argText

end Command

namespace Instr

/-- The instruction is a command with the property. -/
def isCommandWith (p : Instr) (property : Command → Bool) : Bool := p.command?.any property

/-- The instruction transfers control. -/
def isJump (p : Instr) : Bool := p.isCommandWith Command.isJump

/-- The registers that the instruction definitely writes. -/
def defs (p : Instr) : List Reg := p.command?.elim [] Command.defs

/-- The registers that the instruction may write. -/
def clobbers (p : Instr) : List Reg := p.command?.elim [] Command.clobbers

/-- The registers that the instruction reads. -/
def uses (p : Instr) : List Reg := p.command?.elim [] Command.uses

/-- The operand positions where the instruction reads a register. -/
def readSites (p : Instr) : List ReadSite := p.command?.elim [] Command.readSites

/-- The instruction reads `r`. -/
def reads (p : Instr) (r : Reg) : Bool := p.uses.contains r

/-- The instruction definitely writes `r`. -/
def writes (p : Instr) (r : Reg) : Bool := p.defs.contains r

/-- The instruction may write `r`. -/
def mayWrite (p : Instr) (r : Reg) : Bool := p.clobbers.contains r

/-- The label that the instruction jumps to directly. -/
def target? (p : Instr) : Option String := p.command?.bind Command.target?

/-- Destination and source, if the instruction is a plain register copy. -/
def copy? (p : Instr) : Option (Reg × Reg) := p.command?.bind Command.copy?

/-- Reads `target` wherever the instruction read `source`. -/
def renameReads (p : Instr) (source target : Reg) : Instr :=
  match p.command? with
  | some c => p.withCommand (c.renameReads source target)
  | none => p

/-- The instruction as one line of plain text. -/
def text (p : Instr) : String :=
  match p.content with
  | .label name => name ++ ":"
  | .directive text => text
  | .comment text _ => "#" ++ text
  | .command c => c.text

end Instr

end MipsFlow
