import MipsFlow.Graph.Order

/-!
# Every block once

What a depth-first search lists depends on the blocks that are still to be visited and on the path
to the current one: it goes on to one of them, or leaves the current one (`remaining_root`,
`remaining_next`, `remaining_leave`). It lists every block exactly once: `postOrder_perm`.
-/

namespace MipsFlow

namespace Graph

/-- Blocks stand at their places, and control goes from them to blocks of the graph. -/
structure Navigable (g : Graph) : Prop where
  place : ∀ {id : Nat} {b : Block}, g.block? id = some b → b.id = id
  inside : ∀ {id next : Nat} {b : Block}, g.block? id = some b → next ∈ b.succ → next < g.size

theorem visit_cons (succ : Nat → List Nat) (steps : Nat) (todo : List Nat) (b : Nat)
    (stack : List Nat) : visit succ (steps + 1) todo (b :: stack) =
      match (succ b).find? todo.contains with
      | some next => visit succ steps (todo.erase next) (next :: b :: stack)
      | none => b :: visit succ steps todo stack := by
  cases todo <;> rfl

/-! ## One step -/

variable {succ : Nat → List Nat} {todo stack : List Nat} {id b : Nat}

/-- What a search lists from now on, with as many steps as it needs. -/
def remaining (succ : Nat → List Nat) (todo stack : List Nat) : List Nat :=
  visit succ (2 * todo.length + stack.length) todo stack

theorem length_erase_lt (unvisited : id ∈ todo) : (todo.erase id).length < todo.length := by
  have shorter := List.length_erase_of_mem unvisited
  have nonempty := List.length_pos_of_mem unvisited
  omega

/-- The search starts again from the first block that is to be visited. -/
theorem remaining_root (root : Nat) :
    remaining succ (root :: todo) [] = remaining succ todo [root] := rfl

/-- It goes on to the first successor that is to be visited. -/
theorem remaining_next (found : (succ b).find? todo.contains = some id) :
    remaining succ todo (b :: stack) = remaining succ (todo.erase id) (id :: b :: stack) := by
  have unvisited : id ∈ todo := by simpa using List.find?_some found
  have steps : 2 * todo.length + (b :: stack).length =
      2 * (todo.erase id).length + (id :: b :: stack).length + 1 := by
    have shorter := List.length_erase_of_mem unvisited
    have lower := length_erase_lt unvisited
    simp only [List.length_cons]
    omega
  rw [remaining, steps, visit_cons, found, remaining]

/-- It leaves a block that has no such successor. -/
theorem remaining_leave (none : (succ b).find? todo.contains = none) :
    remaining succ todo (b :: stack) = b :: remaining succ todo stack := by
  rw [remaining, List.length_cons, ← Nat.add_assoc, visit_cons, none, remaining]

theorem postOrder_eq_remaining (g : Graph) :
    g.postOrder = remaining g.succ (List.range g.size) [] := by
  rw [remaining, List.length_range, postOrder]
  rfl

/-! ## All steps -/

/-- With enough steps the search lists the path to the current block and all that is still to be
visited. -/
theorem visit_perm (succ : Nat → List Nat) {steps : Nat} (todo stack : List Nat)
    (enough : 2 * todo.length + stack.length ≤ steps) :
    (visit succ steps todo stack).Perm (stack ++ todo) := by
  induction steps generalizing todo stack with
  | zero =>
    obtain rfl : todo = [] := List.eq_nil_of_length_eq_zero (by omega)
    obtain rfl : stack = [] := List.eq_nil_of_length_eq_zero (by omega)
    exact List.Perm.refl _
  | succ steps ih =>
    cases stack with
    | nil =>
      cases todo with
      | nil => exact List.Perm.refl _
      | cons root todo =>
        exact ih _ _ (by simp only [List.length_cons, List.length_nil] at *; omega)
    | cons b stack =>
      rw [visit_cons]
      split
      · next next found =>
        have member : next ∈ todo := by simpa using List.find?_some found
        have shorter := List.length_erase_of_mem member
        have nonempty := List.length_pos_of_mem member
        have visited := ih (todo.erase next) (next :: b :: stack)
          (by simp only [List.length_cons] at *; omega)
        refine visited.trans ?_
        have unerased : (b :: stack ++ next :: todo.erase next).Perm (b :: stack ++ todo) :=
          (List.perm_cons_erase member).symm.append_left _
        exact List.perm_middle.symm.trans unerased
      · exact (ih _ _ (by simp only [List.length_cons] at *; omega)).cons b

theorem postOrder_perm (g : Graph) : g.postOrder.Perm (List.range g.size) := by
  have visited := visit_perm g.succ (List.range g.size) []
    (show _ ≤ 2 * g.size by simp)
  rwa [List.nil_append] at visited

theorem reversePostOrder_perm (g : Graph) : g.reversePostOrder.Perm (List.range g.size) :=
  (List.reverse_perm _).trans g.postOrder_perm

end Graph

end MipsFlow
