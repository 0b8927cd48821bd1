import MipsFlow.Proofs.Attempts.Orders

/-!
# Post-order is the order of the recursive search

The search with an explicit stack looks at the successors of a block from the first on whenever the
block comes to the top of the stack. The recursive search (`Graph.explore`) goes along them once.
Both leave the same blocks in the same order, because a successor that has been passed over is not
to be visited any more (`remaining_explore`), and because the first block to be visited is the next
root in order (`remaining_roots`). So the step by step search, which never runs out of blocks, lists
the blocks as the recursive search does: `postOrder_depthFirst`.
-/

namespace MipsFlow

namespace Graph

variable {g : Graph} {succ : Nat → List Nat} {todo passed ids stack : List Nat} {id b : Nat}

/-! ## The recursive search -/

/-- What a search finds where some blocks are to be visited: the blocks that it leaves, in that
order, and those that are still to be visited afterwards. -/
structure Found (todo : List Nat) where
  listed : List Nat
  left : List Nat
  sublist : left.Sublist todo

/-- Goes along some blocks. From each that is still to be visited it goes along the successors
first, and leaves the block after them. -/
def explore (succ : Nat → List Nat) (todo : List Nat) : List Nat → Found todo
  | [] => ⟨[], todo, .refl todo⟩
  | id :: ids =>
    if _unvisited : id ∈ todo then
      let below := explore succ (todo.erase id) (succ id)
      let behind := explore succ below.left ids
      ⟨below.listed ++ id :: behind.listed, behind.left,
        behind.sublist.trans (below.sublist.trans List.erase_sublist)⟩
    else explore succ todo ids
termination_by ids => (todo.length, ids.length)
decreasing_by
  · exact Prod.Lex.left _ _ (length_erase_lt _unvisited)
  · exact Prod.Lex.left _ _
      (Nat.lt_of_le_of_lt below.sublist.length_le (length_erase_lt _unvisited))
  · exact Prod.Lex.right _ (Nat.lt_succ_self _)

/-- The order in which the recursive search leaves the blocks, started at each of them in turn. -/
def depthFirst (g : Graph) : List Nat :=
  (explore g.succ (List.range g.size) (List.range g.size)).listed

theorem explore_of_not_mem (visited : id ∉ todo) :
    explore succ todo (id :: ids) = explore succ todo ids := by
  rw [explore, dif_neg visited]

theorem listed_explore (unvisited : id ∈ todo) : (explore succ todo (id :: ids)).listed =
    (explore succ (todo.erase id) (succ id)).listed ++
      id :: (explore succ (explore succ (todo.erase id) (succ id)).left ids).listed := by
  rw [explore, dif_pos unvisited]

theorem left_explore (unvisited : id ∈ todo) : (explore succ todo (id :: ids)).left =
    (explore succ (explore succ (todo.erase id) (succ id)).left ids).left := by
  rw [explore, dif_pos unvisited]

/-! ## The search with a stack -/

/-- The search with a stack lists what the recursive one finds behind the successors that have been
passed over, and then leaves the block on top. -/
theorem remaining_explore (distinct : todo.Nodup) (split : succ b = passed ++ ids)
    (done : ∀ id ∈ passed, id ∉ todo) : remaining succ todo (b :: stack) =
      (explore succ todo ids).listed ++ b :: remaining succ (explore succ todo ids).left stack := by
  -- along the recursive search, which may begin at any block with any path behind it
  induction todo, ids using explore.induct succ generalizing b passed stack with
  | case1 todo =>
    have none : (succ b).find? todo.contains = none := by simpa [split] using done
    rw [remaining_leave none, explore]
    rfl
  | case2 todo id ids unvisited below inner outer =>
    have found : (succ b).find? todo.contains = some id := by
      have pass : passed.find? todo.contains = none := by simpa using done
      rw [split, List.find?_append, pass, Option.none_or, List.find?_cons]
      simp [unvisited]
    have erased : (todo.erase id).Nodup := distinct.erase id
    have doneNow : ∀ other ∈ passed ++ [id], other ∉ below.left := by
      intro other member left
      have kept := below.sublist.subset left
      rcases List.mem_append.1 member with before | isId
      · exact done other before (List.mem_of_mem_erase kept)
      · rw [List.mem_singleton.1 isId] at kept
        exact distinct.not_mem_erase kept
    have rest : succ b = (passed ++ [id]) ++ ids := by simp [split]
    rw [remaining_next found, inner erased (List.nil_append (succ id)).symm (by simp),
      outer (below.sublist.nodup erased) rest doneNow, listed_explore unvisited,
      left_explore unvisited, List.append_assoc, List.cons_append]
  | case3 todo id ids visited ih =>
    have doneNow : ∀ other ∈ passed ++ [id], other ∉ todo := by
      intro other member
      rcases List.mem_append.1 member with before | isId
      · exact done other before
      · exact List.mem_singleton.1 isId ▸ visited
    rw [ih distinct (by simp [split]) doneNow, explore_of_not_mem visited]

/-- Without a path it lists what the recursive search finds along the roots, of which those that are
still to be visited are its own next roots in the same order. -/
theorem remaining_roots {roots : List Nat} (distinct : roots.Nodup) (sub : todo.Sublist roots) :
    remaining succ todo [] = (explore succ todo roots).listed := by
  induction roots generalizing todo with
  | nil =>
    rw [List.sublist_nil.1 sub, explore]
    rfl
  | cons root roots ih =>
    obtain ⟨once, distinct⟩ := List.nodup_cons.1 distinct
    rcases List.sublist_cons_iff.1 sub with visited | ⟨later, rfl, subLater⟩
    · have isVisited : root ∉ todo := fun member => once (visited.subset member)
      rw [ih distinct visited, explore_of_not_mem isVisited]
    · have unvisited : root ∈ root :: later := List.mem_cons_self ..
      have below : remaining succ later [root] = _ :=
        remaining_explore (subLater.nodup distinct) (List.nil_append (succ root)).symm (by simp)
      rw [remaining_root, below, listed_explore unvisited, List.erase_cons_head,
        ih distinct ((explore succ later (succ root)).sublist.trans subLater)]

theorem postOrder_eq_depthFirst (g : Graph) : g.postOrder = g.depthFirst := by
  rw [postOrder_eq_remaining, remaining_roots List.nodup_range (.refl _), depthFirst]

/-! ## The search step by step -/

theorem map_block?_range (g : Graph) : (List.range g.size).map g.block? = g.blocks.map some := by
  refine List.ext_getElem? fun id => ?_
  rw [List.getElem?_map, List.getElem?_map]
  by_cases inside : id < g.size
  · obtain ⟨b, here⟩ : ∃ b, g.blocks[id]? = some b := block?_of_lt_size inside
    rw [List.getElem?_range inside, here, Option.map_some, Option.map_some, block?, here]
  · have none : g.blocks[id]? = none := List.getElem?_eq_none (Nat.not_lt.1 inside)
    rw [none, List.getElem?_eq_none (by simpa using Nat.not_lt.1 inside)]
    rfl

/-- Blocks with the places of all blocks are all the blocks. -/
theorem perm_blocks {blocks : List Block} (places : (blocks.map Block.id).Perm (List.range g.size))
    (here : ∀ b ∈ blocks, g.block? b.id = some b) : blocks.Perm g.blocks := by
  have each : blocks.map some = (blocks.map Block.id).map g.block? := by
    rw [List.map_map]
    exact List.map_congr_left fun b member => (here b member).symm
  rw [← List.map_perm_map_iff (Option.some_injective Block), each, ← map_block?_range]
  exact places.map g.block?

/-- The search with a stack ends without running out of blocks. It lists every block exactly once,
in the order in which the recursive search leaves them, and in reverse the other way around. -/
theorem postOrder_depthFirst (navigable : g.Navigable) : ∃ blocks,
    Attempt.postOrder g = pure blocks ∧ Attempt.reversePostOrder g = pure blocks.reverse ∧
    blocks.Perm g.blocks ∧ blocks.map Block.id = g.depthFirst ∧
    g.postOrder = g.depthFirst ∧ g.reversePostOrder = g.depthFirst.reverse := by
  obtain ⟨blocks, listed, order, here⟩ := Attempt.postOrder_ends navigable
  have recursive := g.postOrder_eq_depthFirst
  refine ⟨blocks, listed, ?_, ?_, order.trans recursive, recursive, ?_⟩
  · rw [Attempt.reversePostOrder, listed, pure_bind, Attempt.exchangeEnds_eq]
  · exact perm_blocks (order ▸ g.postOrder_perm) here
  · rw [reversePostOrder, recursive]

/-- A diamond with a loop, and a block that only leads into it. -/
theorem postOrder_depthFirst_diamond :
    let jump (id : Nat) (op : Opcode) (args : List Operand) : Instr :=
      .ofCommand id (.ofOpcode op args)
    let g := build [
      jump 1 .bne [.reg (.general 8), .reg (.general 9), .sym "L"], jump 2 .j [.sym "M"],
      ⟨3, .label "L", "", []⟩, jump 4 .bne [.reg (.general 8), .reg Reg.zero, .sym "L"],
      ⟨5, .label "M", "", []⟩, jump 6 .jr [.reg Reg.link], jump 7 .j [.sym "L"]]
    g.Navigable ∧ ∃ blocks, Attempt.postOrder g = pure blocks ∧
      Attempt.reversePostOrder g = pure blocks.reverse ∧
      blocks.map Block.id = [3, 2, 1, 0, 4] := by
  intro jump g
  have navigable : g.Navigable := (build_regular _).navigable
  have order : g.postOrder = [3, 2, 1, 0, 4] := by decide +kernel
  obtain ⟨blocks, listed, reversed, -, recursive, same, -⟩ := postOrder_depthFirst navigable
  exact ⟨navigable, blocks, listed, reversed, recursive.trans (same.symm.trans order)⟩

end Graph

end MipsFlow
