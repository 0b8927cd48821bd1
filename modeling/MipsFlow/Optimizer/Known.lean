import MipsFlow.Dataflow.FactSet
import MipsFlow.Instr.Roles
import MipsFlow.Word

/-!
# Known values

While constant folding goes through a block it knows some registers and some words of memory. A
store may change any word of memory, so only the word stored last is known; code out of sight and
foreign commands may change all of them. Reserved registers are never known.
-/

namespace MipsFlow

/-- A word of memory with a known value. -/
structure Cell where
  offset : Offset
  base : Reg
  value : Word
deriving DecidableEq, Repr

/-- The registers and words of memory whose values are known. -/
structure Known where
  /-- Registers that may change unseen. -/
  fixed : FactSet Reg
  regs : List (Reg × Word) := []
  cells : List Cell := []

namespace Known

/-- The value of a register. -/
def reg? (k : Known) (r : Reg) : Option Word :=
  if r.isZero then some 0 else k.regs.lookup r

/-- The value of an operand. -/
def operand? (k : Known) : Operand → Option Word
  | .imm value => some (.ofImm value)
  | .reg r => k.reg? r
  | .mem _ _ | .sym _ => none

/-- The word at a place in memory. -/
def cell? (k : Known) (offset : Offset) (base : Reg) : Option Word :=
  (k.cells.find? fun c => c.offset = offset && c.base = base).map Cell.value

/-- Records the value of a register. -/
def setReg (k : Known) (r : Reg) (value : Word) : Known :=
  if r.isZero || k.fixed.contains r then k else { k with regs := (r, value) :: k.regs }

/-- Forgets registers, and the words of memory at addresses that they hold. -/
def forget (k : Known) (rs : List Reg) : Known :=
  { k with
    regs := k.regs.filter fun (r, _) => !rs.contains r
    cells := k.cells.filter fun c => !rs.contains c.base }

/-- Forgets all of memory. -/
def forgetMemory (k : Known) : Known := { k with cells := [] }

/-! ## Evaluating commands -/

/-- The value that a command writes to its first operand, if that can be told. -/
def result? (k : Known) (c : Command) : Option Word :=
  if c.isForeign then none
  else
    match c.op?, c.args with
    | some .li, [.reg _, o] => k.operand? o
    | some .lui, [.reg _, .imm value] => some (Word.ofImm value <<< 16)
    | some .move, [.reg _, .reg src] => k.reg? src
    | some .mflo, [.reg _] => k.reg? .lo
    | some .mfhi, [.reg _] => k.reg? .hi
    | some .lw, [.reg _, .mem offset base] => k.cell? offset base
    | some op, [.reg _, o] => (k.operand? o).bind (Word.unary? op)
    | some op, [.reg _, x, y] =>
      if c.isMultiplierDivision then none
      else (k.operand? x).bind fun x => (k.operand? y).bind (Word.binary? op x)
    | _, _ => none

/-- The operands that go to the multiplier. A product takes the first two operands, and has to
have them; a division takes the last two. -/
def multiplierOperands (c : Command) : Option (List Operand) :=
  if c.op? = some .mult || c.op? = some .multu then some c.args
  else if c.isMultiplierDivision then some (c.args.drop (c.args.length - 2))
  else none

/-- What a command leaves in the multiplier's two registers, if that can be told. The second
operand of a product is looked at only if the first one is known. -/
def multiplierResult (k : Known) (c : Command) : Except Fault (Option (Word × Word)) :=
  match c.op?, multiplierOperands c with
  | some _, some [] => .error (.outOfBounds 0 0)
  | some op, some (x :: rest) =>
    match k.operand? x, rest with
    | none, _ => .ok none
    | some _, [] => .error (.outOfBounds 1 1)
    | some x, y :: _ => .ok ((k.operand? y).bind (Word.multiplier? op x))
  | _, _ => .ok none

/-- What is known about memory after a command. -/
def afterStore (k : Known) (c : Command) : Known :=
  if c.isForeign || c.leavesCode then k.forgetMemory
  else if c.isStore then
    match c.op?, c.args with
    | some .sw, [o, .mem offset base] =>
      { k with cells := ((k.operand? o).map (Cell.mk offset base)).toList }
    | _, _ => k.forgetMemory
  else k

/-- What is known after a command. -/
def after (k : Known) (c : Command) : Except Fault Known := do
  let result := k.result? c
  let pair ← k.multiplierResult c
  let k := (k.afterStore c).forget c.clobbers
  let k := match result, c.args with
    | some value, .reg dst :: _ => k.setReg dst value
    | _, _ => k
  return match pair with
    | some (hi, lo) => (k.setReg .hi hi).setReg .lo lo
    | none => k

end Known

end MipsFlow
