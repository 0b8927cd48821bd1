import MipsFlow.Dataflow.Problem

/-!
# Live registers

A register is live where its value may still be read before it is certainly overwritten. Reserved
registers are live everywhere. Where the program ends, the results and the registers that a
function has to keep are live; a jump to a destination that is not in sight reads every argument
and result register.

`Block.useDef` summarises a block for the analysis; `liveIn` and `deadIn` follow the code of a
block backward from its exit, or forward from a place in it.
-/

namespace MipsFlow

namespace Liveness

/-- Read by a jump whose destination is not in the program. -/
def forced : List Reg := Reg.firstResult :: Reg.secondResult :: Reg.arguments

/-- Live where the program ends. -/
def atExit (reserved : List Reg) : FactSet Reg :=
  .ofList (reserved ++ Reg.results ++ Reg.calleeSaved)

/-- The registers that an instruction reads, with `rest` behind it in a block. The last jump of an
unresolved block also reads the forced ones. -/
def usesBefore (unresolved : Bool) (p : Instr) (rest : List Instr) : List Reg :=
  if unresolved && rest.isEmpty && p.isJump then
    p.uses ++ forced.filter fun r => !p.reads r
  else p.uses

/-- Adds the registers read before they are written, and those written, to what has been collected
from the instructions before. -/
def useDef (unresolved : Bool) : FactSet Reg → FactSet Reg → List Instr →
    FactSet Reg × FactSet Reg
  | use, defined, [] => (use, defined)
  | use, defined, p :: rest =>
    useDef unresolved
      (use.insertAll ((usesBefore unresolved p rest).filter fun r => !defined.contains r))
      (defined.insertAll p.defs) rest

/-- The problem of live registers: backward, by union. -/
def problem (g : Graph) (reserved : List Reg) : Problem Reg :=
  let sets := g.blocks.map fun b => useDef b.unresolved (.ofList reserved) .empty b.code
  { name := "liveness"
    direction := .backward
    meet := .union
    gen := sets.map (·.1)
    kill := sets.map fun s => s.2.diff (.ofList reserved)
    boundary := atExit reserved }

/-- The registers live before the instructions of a list, given those live behind them. -/
def liveIn (reserved : FactSet Reg) (unresolved : Bool) (out : FactSet Reg) :
    List Instr → FactSet Reg
  | [] => out
  | p :: rest =>
    ((liveIn reserved unresolved out rest).filter fun r =>
      reserved.contains r || !p.writes r).insertAll (usesBefore unresolved p rest)

/-- The register is certainly overwritten by the instructions of a list, or not live behind them,
before any of them reads it. -/
def deadIn (unresolved : Bool) (out : FactSet Reg) (r : Reg) : List Instr → Bool
  | [] => !out.contains r
  | p :: rest =>
    !(usesBefore unresolved p rest).contains r && (p.writes r || deadIn unresolved out r rest)

end Liveness

/-- The registers that the instruction at a position of a block reads. -/
def Block.usesAt (b : Block) (i : Nat) : List Reg :=
  match b.code.drop i with
  | p :: rest => Liveness.usesBefore b.unresolved p rest
  | [] => []

end MipsFlow
