import MipsFlow.Dataflow.Facts
import MipsFlow.Edit

/-!
# What a block pass sees

The passes over a single block need few of the facts: which registers are reserved, which are live
behind the block, and whether the block ends in a jump to an unknown destination.
-/

namespace MipsFlow

/-- The surroundings of a block. -/
structure View where
  /-- Changes leave notes. -/
  annotated : Bool
  reserved : FactSet Reg
  liveOut : FactSet Reg
  unresolved : Bool

/-- The surroundings of a block according to the facts. -/
def Facts.view (f : Facts) (annotated : Bool) (b : Block) : View :=
  { annotated
    reserved := f.reserved
    liveOut := f.liveOut b
    unresolved := b.unresolved }

namespace View

/-- The value of the register is not needed by the rest of the block, nor behind it. -/
def dead (v : View) (rest : List Instr) (r : Reg) : Bool :=
  !v.reserved.contains r && Liveness.deadIn v.unresolved v.liveOut r rest

/-- The instruction that replaces another one, with its notes and the reason. -/
def succeed (v : View) (old new : Instr) (note : String) : Instr :=
  if v.annotated then new.annotate (old.notes ++ [note]) else new

/-- The instruction after it was changed in place. -/
def noted (v : View) (p : Instr) (note : String) : Instr :=
  if v.annotated then p.note note else p

end View

/-- The code of a block, and the next free identity. -/
structure BlockCode where
  code : List Instr
  nextId : Nat
deriving DecidableEq, Repr

end MipsFlow
