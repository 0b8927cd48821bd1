import MipsFlow.Optimizer.Exhaust
import MipsFlow.Optimizer.View

/-!
# Dead code elimination

A command goes if it has no effect but to write registers whose values nobody needs. All commands
that are dead at the same time go together, and then the block is searched again.
-/

namespace MipsFlow

namespace DeadCode

/-- Nobody needs what the instruction does, given what follows it. -/
def isDead (v : View) (p : Instr) (rest : List Instr) : Bool :=
  p.isCommandWith Command.isPure && !p.defs.isEmpty && p.defs.all (v.dead rest)

/-- The positions of the dead instructions of a list that starts at position `i`. -/
def deadFrom (v : View) : Nat → List Instr → List Nat
  | _, [] => []
  | i, p :: rest =>
    if isDead v p rest then i :: deadFrom v (i + 1) rest else deadFrom v (i + 1) rest

/-- Removes the instruction at a position. -/
def removeAt (v : View) (i : Nat) (code : List Instr) : List Instr :=
  match code[i]? with
  | some p => Edit.splice v.annotated code i 1 [] ("dead code removed: " ++ p.text)
  | none => code

/-- Removes all dead instructions, the last one first. -/
def step (v : View) (code : List Instr) : Option (List Instr) :=
  match deadFrom v 0 code with
  | [] => none
  | dead => some (dead.foldr (removeAt v) code)

/-- Removes dead instructions until there are none. -/
def run (v : View) (code : List Instr) : List Instr := exhaust (step v) code.length code

end DeadCode

end MipsFlow
