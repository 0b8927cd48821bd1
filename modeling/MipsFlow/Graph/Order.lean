import MipsFlow.Graph

/-!
# Depth-first orders

Post-order lists a block when all its successors have been visited, following the edges in the
order of the successor list. The search starts at the first block, and again at the first block
not yet visited as long as there is one.
-/

namespace MipsFlow

namespace Graph

/-- The search with an explicit stack: `todo` are the blocks not yet visited, in increasing order,
and `stack` the path to the block being visited. Every step visits a block or leaves one, so twice
as many steps as there are blocks finish the search. -/
def visit (succ : Nat → List Nat) : Nat → List Nat → List Nat → List Nat
  | 0, _, _ => []
  | _ + 1, [], [] => []
  | steps + 1, root :: todo, [] => visit succ steps todo [root]
  | steps + 1, todo, b :: stack =>
    match (succ b).find? todo.contains with
    | some next => visit succ steps (todo.erase next) (next :: b :: stack)
    | none => b :: visit succ steps todo stack

/-- The places of the blocks in depth-first post-order. -/
def postOrder (g : Graph) : List Nat :=
  visit g.succ (2 * g.size) (List.range g.size) []

/-- The places of the blocks in reverse depth-first post-order. -/
def reversePostOrder (g : Graph) : List Nat := g.postOrder.reverse

end Graph

end MipsFlow
