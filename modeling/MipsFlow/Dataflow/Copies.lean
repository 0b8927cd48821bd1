import MipsFlow.Dataflow.Problem

/-!
# Available copies

A copy is available where its two registers are known to hold the same value, because on every
path to the place it has been made and neither register may have been written since. Copies of a
register to itself, and copies that involve a reserved register, are not followed.
-/

namespace MipsFlow

/-- Two registers that hold the same value after the one was copied to the other. -/
structure Copy where
  dst : Reg
  src : Reg
deriving DecidableEq, Repr

namespace Copy

/-- The copy as an equation. -/
def text (c : Copy) : String := c.dst.name ++ "=" ++ c.src.name

/-- One of the two registers is in the list. -/
def touches (c : Copy) (rs : List Reg) : Bool := rs.contains c.dst || rs.contains c.src

/-- The copy that an instruction makes. -/
def of? (reserved : FactSet Reg) (p : Instr) : Option Copy :=
  match p.copy? with
  | some (dst, src) =>
    if dst = src || reserved.contains dst || reserved.contains src then none
    else some ⟨dst, src⟩
  | none => none

end Copy

namespace Copies

/-- The copies that a sequence makes. -/
def made (reserved : FactSet Reg) (code : List Instr) : FactSet Copy :=
  .ofList (code.filterMap (Copy.of? reserved))

/-- The copies, among `all`, that survive a block that starts with those of `gen`, and those that
it destroys besides `kill`. -/
def genKill (reserved : FactSet Reg) (all : FactSet Copy) : FactSet Copy → FactSet Copy →
    List Instr → FactSet Copy × FactSet Copy
  | gen, kill, [] => (gen, kill)
  | gen, kill, p :: rest =>
    let written := p.clobbers
    genKill reserved all
      ((gen.filter fun c => !c.touches written).insertAll (Copy.of? reserved p).toList)
      (kill.union (all.filter fun c => c.touches written)) rest

/-- The problem of available copies: forward, by intersection. Nothing is available where control
comes in from out of sight. -/
def problem (g : Graph) (reserved : List Reg) : Problem Copy :=
  let fixed := FactSet.ofList reserved
  let all := made fixed g.flatten
  let sets := g.blocks.map fun b => genKill fixed all .empty .empty b.code
  { name := "available copies"
    direction := .forward
    meet := .intersect
    gen := sets.map (·.1)
    kill := sets.map (·.2)
    boundary := .empty
    everything := some all
    opened := Block.entry }

end Copies

end MipsFlow
