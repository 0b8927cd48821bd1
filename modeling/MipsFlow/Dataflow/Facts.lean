import MipsFlow.Dataflow.Liveness
import MipsFlow.Dataflow.Reaching
import MipsFlow.Dataflow.Copies

/-!
# The facts of a program

The solutions of the three analyses over one graph, and the questions that they answer about
places inside the blocks. The answers stay with the graph that was analysed: when a block changes,
they have to be computed again.
-/

namespace MipsFlow

/-- What is known about a graph. -/
structure Facts where
  reserved : FactSet Reg
  live : Solution Reg
  reach : Solution Nat
  copies : Solution Copy

namespace Facts

/-- Analyses a graph. -/
def analyze (g : Graph) (reserved : List Reg) : Facts :=
  { reserved := .ofList reserved
    live := (Liveness.problem g reserved).solution g
    reach := (Reaching.problem g).solution g
    copies := (Copies.problem g reserved).solution g }

/-- The number of times that the facts of a block were computed. -/
def steps (f : Facts) : Nat := f.live.steps + f.reach.steps + f.copies.steps

/-- The registers live at the exit of a block. -/
def liveOut (f : Facts) (b : Block) : FactSet Reg := f.live.exitOf b.id

/-- The register is dead before the instruction at position `i` of the block, or at its exit if
there is none: its value is not read before it is overwritten. Reserved registers are never
dead. -/
def deadAt (f : Facts) (b : Block) (i : Nat) (r : Reg) : Bool :=
  !f.reserved.contains r && Liveness.deadIn b.unresolved (f.liveOut b) r (b.code.drop i)

/-- The registers live before the instruction at position `i` of the block. -/
def liveAt (f : Facts) (b : Block) (i : Nat) : FactSet Reg :=
  Liveness.liveIn f.reserved b.unresolved (f.liveOut b) (b.code.drop i)

/-- The definition made by the instruction reaches the exit of the block. -/
def reaches (f : Facts) (b : Block) (p : Instr) : Bool := (f.reach.exitOf b.id).contains p.id

/-- The copy holds at the entry of the block. -/
def available (f : Facts) (b : Block) (c : Copy) : Bool := (f.copies.entryOf b.id).contains c

end Facts

end MipsFlow
