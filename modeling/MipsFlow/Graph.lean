import MipsFlow.Instr.Roles

/-!
# Control-flow graphs

A basic block is a run of instructions that is entered only at its start and left only at its
end. A graph is a list of blocks, each known by its place in the list, with the blocks that
control may go to from each of them, and the blocks that it may come from.
-/

namespace MipsFlow

/-- A basic block. -/
structure Block where
  /-- The place of the block in its graph. -/
  id : Nat
  code : List Instr
  /-- Where control may go from the end of the block, most direct first, without repetition. -/
  succ : List Nat := []
  /-- Where control may come from, in increasing order. -/
  pred : List Nat := []
  /-- Control may also come from out of sight, because the address of the block is taken. -/
  entry : Bool := false
  /-- The block ends in a jump whose destination is not known to be in the program. -/
  unresolved : Bool := false
deriving DecidableEq, Repr

namespace Block

/-- The label that leads the block. -/
def label? (b : Block) : Option String := b.code.head?.bind Instr.label?

/-- The jump that ends the block. -/
def terminator? (b : Block) : Option Instr := b.code.getLast?.filter Instr.isJump

/-- The block and its instructions as plain text. -/
def text (b : Block) : String :=
  "\n".intercalate
    (("bb_" ++ Text.decimalNat b.id ++ ":") :: b.code.map fun p => "    " ++ p.text)

end Block

/-- A program that is cut into basic blocks. -/
structure Graph where
  blocks : List Block
deriving DecidableEq, Repr

namespace Graph

/-- The block with the given place. -/
def block? (g : Graph) (id : Nat) : Option Block := g.blocks[id]?

/-- The number of blocks. -/
def size (g : Graph) : Nat := g.blocks.length

/-- The successors of a block. -/
def succ (g : Graph) (id : Nat) : List Nat := (g.block? id).elim [] Block.succ

/-- The predecessors of a block. -/
def pred (g : Graph) (id : Nat) : List Nat := (g.block? id).elim [] Block.pred

/-- The number of edges. -/
def edgeCount (g : Graph) : Nat := g.blocks.foldl (fun n b => n + b.succ.length) 0

/-- The instructions of all blocks in order. -/
def flatten (g : Graph) : List Instr := g.blocks.flatMap Block.code

/-- The graph with the instructions of one block exchanged. -/
def setCode (g : Graph) (id : Nat) (code : List Instr) : Graph :=
  { g with blocks := g.blocks.modify id fun b => { b with code } }

end Graph

end MipsFlow
