import MipsFlow.Dataflow.Problem

/-!
# Reaching definitions

A definition is an instruction, known by its identity, that certainly writes a register. It
reaches a place if control can come from it to the place without another definition of the same
register on the way.
-/

namespace MipsFlow

namespace Reaching

/-- The definitions of a sequence: each register that is written, with the instruction. -/
def definitions (code : List Instr) : List (Reg × Nat) :=
  code.flatMap fun p => p.defs.map (·, p.id)

/-- The last definition of each register. -/
def lastOfEach : List (Reg × Nat) → List (Reg × Nat)
  | [] => []
  | d :: rest => if rest.any (·.1 = d.1) then lastOfEach rest else d :: lastOfEach rest

/-- The definitions that reach the end of a block from inside it. -/
def gen (b : Block) : FactSet Nat := .ofList ((lastOfEach (definitions b.code)).map (·.2))

/-- The definitions, among `all`, of a register that the block defines. -/
def rivals (all : List (Reg × Nat)) (b : Block) : FactSet Nat :=
  let written := (definitions b.code).map (·.1)
  .ofList ((all.filter fun d => written.contains d.1).map (·.2))

/-- The problem of reaching definitions: forward, by union. -/
def problem (g : Graph) : Problem Nat :=
  let all := definitions g.flatten
  { name := "reaching definitions"
    direction := .forward
    meet := .union
    gen := g.blocks.map gen
    kill := g.blocks.map fun b => (rivals all b).diff (gen b)
    boundary := .empty }

end Reaching

end MipsFlow
