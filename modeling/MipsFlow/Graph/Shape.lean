import MipsFlow.Graph

/-!
# The shape of a graph

How many blocks and edges a graph has, how many blocks can be reached from the first, and how many
loops there are: sets of two or more blocks that can all be reached from each other, and blocks
that are their own successor.
-/

namespace MipsFlow

namespace Graph

/-- The blocks of `seen`, and their successors. -/
def expand (succ : Nat → List Nat) (seen : List Nat) : List Nat :=
  (seen ++ seen.flatMap succ).eraseDups

/-- What can be reached from `seen` in at most `steps` steps, stopping when nothing is new. -/
def closure (succ : Nat → List Nat) : Nat → List Nat → List Nat
  | 0, seen => seen
  | steps + 1, seen =>
    let wider := expand succ seen
    if wider.length = seen.length then seen else closure succ steps wider

/-- The blocks that can be reached from a block, itself included. -/
def reachable (g : Graph) (id : Nat) : List Nat := closure g.succ g.size [id]

/-- Each of the two blocks can be reached from the other. -/
def onCycle (reach : List (List Nat)) (a b : Nat) : Bool :=
  (reach[a]?.getD []).contains b && (reach[b]?.getD []).contains a

/-- The number of sets of two or more blocks that can be reached from each other. Each is counted
at its first block. -/
def cycleCount (g : Graph) : Nat :=
  let places := List.range g.size
  let reach := places.map g.reachable
  places.countP fun b =>
    places.any (fun a => b < a && onCycle reach a b) &&
      !places.any fun a => a < b && onCycle reach a b

/-- The number of blocks that are their own successor. -/
def selfLoopCount (g : Graph) : Nat := g.blocks.countP fun b => b.succ.contains b.id

/-- The counts that describe a graph. -/
structure Shape where
  blocks : Nat
  edges : Nat
  reachable : Nat
  loops : Nat
deriving DecidableEq, Repr

/-- The shape of a graph. -/
def shape (g : Graph) : Shape :=
  { blocks := g.size
    edges := g.edgeCount
    reachable := if g.blocks.isEmpty then 0 else (g.reachable 0).length
    loops := g.cycleCount + g.selfLoopCount }

/-- The shape in one line. -/
def Shape.text (s : Shape) : String :=
  Text.decimalNat s.blocks ++ " blocks, " ++ Text.decimalNat s.edges ++ " edges, " ++
    Text.decimalNat s.reachable ++ " reachable, " ++ Text.decimalNat s.loops ++ " loops"

end Graph

end MipsFlow
