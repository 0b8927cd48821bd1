import MipsFlow.Optimizer.Known
import MipsFlow.Optimizer.View

/-!
# Constant folding

Goes through a block with the known values. A computation whose operands are all known becomes a
literal. One that has a single known operand takes it as a literal if the machine encodes it
directly, and is simplified if the literal is zero.
-/

namespace MipsFlow

namespace Folding

/-- The operation takes the literal in place of its last operand. Literals of a subtraction are
encoded by their negation. -/
def takesLiteral : Opcode → Int → Bool
  | .addu, v | .slt, v | .sltu, v => fitsSigned16 v
  | .subu, v => fitsSigned16 v && fitsSigned16 (-v)
  | .and, v | .or, v | .xor, v => fitsUnsigned16 v
  | _, _ => false

/-- The last two operands of a command with one known operand put in as a literal. The literal
goes last, so the first operand can only be put in if the operation commutes. -/
def literalOperands? (k : Known) (op : Opcode) (x y : Reg) : Option (Reg × Operand) :=
  match k.reg? x, k.reg? y with
  | none, some value =>
    if takesLiteral op value.toInt then some (x, .imm value.toImm) else none
  | some value, none =>
    if op.has .commutes && takesLiteral op value.toInt then some (y, .imm value.toImm) else none
  | _, _ => none

/-- What an operation with zero as its last operand amounts to. -/
def simplified? (dst src : Reg) : Opcode → Option Command
  | .addu | .addiu | .subu | .or | .ori | .xor | .xori => some (.copy dst src)
  | .and | .andi => some (.loadImm dst 0)
  | _ => none

/-- A command with its known operand put in as a literal, and what that amounts to if it is
zero. -/
structure Reduction where
  /-- The command, if it has changed. -/
  changed : Option Command
  /-- A simpler command that takes its place. -/
  simpler : Option Command

/-- Reduces the operands of a computation. -/
def reduce (k : Known) (c : Command) : Reduction :=
  match c.op?, c.args with
  | some op, [.reg dst, .reg x, last] =>
    let put := match last with
      | .reg y => literalOperands? k op x y
      | _ => none
    let (x, last) := put.getD (x, last)
    { changed := put.map fun (x, o) => { c with args := [.reg dst, .reg x, o] }
      simpler := if last = .imm 0 then simplified? dst x op else none }
  | _, _ => ⟨none, none⟩

/-- The command computes something into a register that is not reserved. -/
def isFoldable (v : View) (c : Command) : Bool :=
  (c.isArith || c.copy?.isSome || c.op? = some .mflo || c.op? = some .mfhi || c.readsMemory) &&
    match c.args with
    | .reg dst :: _ => !v.reserved.contains dst
    | _ => false

/-- What becomes of a command: the instruction in its place, and the next free identity. -/
structure Folded where
  instr : Instr
  nextId : Nat
  changed : Bool

/-- Folds a command, or reduces its operands, or leaves it. -/
def fold (v : View) (k : Known) (next : Nat) (p : Instr) (c : Command) : Folded :=
  match isFoldable v c, k.result? c, c.args with
  | true, some value, .reg dst :: _ =>
    ⟨v.succeed p (.ofCommand next (.loadImm dst value.toImm))
      ("constant folded: " ++ p.text ++ " = " ++ Text.decimal value.toInt), next + 1, true⟩
  | true, _, _ =>
    if c.isArith then
      let note := "constant operand: " ++ p.text
      match reduce k c with
      | ⟨_, some simpler⟩ => ⟨v.succeed p (.ofCommand next simpler) note, next + 1, true⟩
      | ⟨some changed, none⟩ => ⟨v.noted (p.withCommand changed) note, next, true⟩
      | ⟨none, none⟩ => ⟨p, next, false⟩
    else ⟨p, next, false⟩
  | false, _, _ => ⟨p, next, false⟩

/-- The block after folding, whether it has changed, and the fault that ended it early. -/
structure Outcome where
  block : BlockCode
  changed : Bool
  fault : Option Fault

/-- Folds the commands of a block in order. -/
def runFrom (v : View) : Known → Nat → List Instr → Outcome
  | _, next, [] => ⟨⟨[], next⟩, false, none⟩
  | k, next, p :: rest =>
    match p.command? with
    | none =>
      let after := runFrom v k next rest
      { after with block := { after.block with code := p :: after.block.code } }
    | some c =>
      let folded := fold v k next p c
      match (folded.instr.command?.elim (.ok k) k.after : Except Fault Known) with
      | .error fault => ⟨⟨folded.instr :: rest, folded.nextId⟩, folded.changed, some fault⟩
      | .ok k =>
        let after := runFrom v k folded.nextId rest
        { after with
          block := { after.block with code := folded.instr :: after.block.code }
          changed := folded.changed || after.changed }

/-- Folds a block. -/
def run (v : View) (b : BlockCode) : Outcome :=
  runFrom v { fixed := v.reserved } b.nextId b.code

end Folding

end MipsFlow
