import MipsFlow.Proofs.Attempts.Graphs
import MipsFlow.Proofs.PostOrder

/-!
# Searching step by step

The depth-first search keeps a mark for every block, the path to the current block on a stack, and
the place from which it looks for a block to start from again. One call gives the next block in
post-order; it must never find that the stack has run out while it is looking.

All that is to come of a search (`Search.rest`) is a matter of its marks and its stack. A call takes
the next block off it (`descend_ends`), so the calls together list the blocks in post-order.
-/

namespace MipsFlow

namespace Attempt

/-- A search that is under way. -/
structure Search where
  /-- For each block, whether it has been visited. -/
  visited : List Bool
  /-- The path to the current block, which is on top. -/
  stack : List Block := []
  /-- Where to look for the next block to start from. -/
  root : Nat := 0

/-- Starts from the next block that has not been visited. -/
def nextRoot (g : Graph) : Search → Attempt (Option Search) :=
  loop fun s => do
    if s.root < s.visited.length then
      if ← index s.visited s.root then return .inl { s with root := s.root + 1 }
      else
        let visited ← store s.visited s.root true
        let b ← index g.blocks s.root
        return .inr (some { s with visited, stack := b :: s.stack })
    else return .inr none

/-- The first of some blocks that has not been visited. -/
def firstUnvisited (visited : List Bool) : List Nat → Attempt (Option Nat)
  | [] => return none
  | id :: ids => do if ← index visited id then firstUnvisited visited ids else return some id

/-- Goes on to a block all of whose successors have been visited, and leaves it. -/
def descend (g : Graph) : Search → Attempt (Block × Search) :=
  loop fun s => do
    if s.stack.isEmpty then throw .unbalancedStack
    else
      let b ← index s.stack 0
      match ← firstUnvisited s.visited b.succ with
      | some id =>
        let visited ← store s.visited id true
        let next ← index g.blocks id
        return .inl { s with visited, stack := next :: s.stack }
      | none =>
        let (b, stack) ← takeFirst s.stack
        return .inr (b, { s with stack })

/-- The next block in post-order. -/
def nextBlock (g : Graph) (s : Search) : Attempt (Option (Block × Search)) := do
  if s.stack.isEmpty then
    match ← nextRoot g s with
    | none => return none
    | some s => return some (← descend g s)
  else return some (← descend g s)

/-- All the blocks in post-order. -/
def postOrder (g : Graph) : Attempt (List Block) :=
  loop (fun (s, found) => do
    match ← nextBlock g s with
    | some (b, s) => return .inl (s, found ++ [b])
    | none => return .inr found)
    (({ visited := List.replicate g.size false } : Search), [])

/-- Exchanges the elements at two places as long as the first one is before the second. -/
def exchangeEnds {α : Type} : List α × Nat × Nat → Attempt (List α) :=
  loop fun (xs, i, j) => do
    if i < j then
      let x ← index xs i
      let y ← index xs j
      let xs ← store xs i y
      let xs ← store xs j x
      return .inl (xs, i + 1, j - 1)
    else return .inr xs

/-- All the blocks in reverse post-order. -/
def reversePostOrder (g : Graph) : Attempt (List Block) := do
  let blocks ← postOrder g
  exchangeEnds (blocks, 0, blocks.length - 1)

variable {g : Graph} {s t : Search} {id : Nat} {b : Block}

/-! ## What is still to come -/

namespace Search

/-- The blocks that have not been visited. -/
def todo (s : Search) : List Nat :=
  (List.range s.visited.length).filter fun id => s.visited[id]? = some false

/-- The places of the blocks on the stack. -/
def path (s : Search) : List Nat := s.stack.map Block.id

/-- There is a mark for every block, and the blocks on the stack are those of the graph. -/
structure Fits (g : Graph) (s : Search) : Prop where
  marks : s.visited.length = g.size
  inside : ∀ b ∈ s.stack, g.block? b.id = some b
  /-- The blocks before the next root have been visited. -/
  rooted : ∀ id ∈ s.todo, s.root ≤ id

/-- A bound on the number of steps that are left. -/
def left (s : Search) : Nat := 2 * s.todo.length + s.path.length

/-- The blocks that are still to be listed. -/
def rest (g : Graph) (s : Search) : List Nat := Graph.visit g.succ s.left s.todo s.path

/-- Marks a block as visited, and goes on to it. -/
def push (s : Search) (b : Block) : Search :=
  { s with visited := s.visited.set b.id true, stack := b :: s.stack }

theorem mem_todo : id ∈ s.todo ↔ s.visited[id]? = some false := by
  simp only [todo, List.mem_filter, List.mem_range, decide_eq_true_eq, and_iff_right_iff_imp]
  exact fun unvisited => (List.getElem?_eq_some_iff.1 unvisited).1

/-- What is still to come is a matter of the marks and the stack alone. -/
theorem rest_congr (marks : t.visited = s.visited) (stack : t.stack = s.stack) :
    t.rest g = s.rest g ∧ t.left = s.left := by
  have todo : t.todo = s.todo := by rw [todo, marks, Search.todo]
  have path : t.path = s.path := by rw [path, stack, Search.path]
  have left : t.left = s.left := by rw [left, todo, path, Search.left]
  exact ⟨by rw [rest, left, todo, path, Search.rest], left⟩

theorem todo_push (s : Search) (b : Block) : (s.push b).todo = s.todo.erase b.id := by
  have nodup : s.todo.Nodup := List.nodup_range.filter _
  rw [nodup.erase_eq_filter, todo, todo, List.filter_filter, push, List.length_set]
  refine List.filter_congr fun id member => ?_
  rw [List.getElem?_set]
  by_cases same : b.id = id
  · rw [if_pos same]
    split <;> simp [same]
  · simp [same, Ne.symm same]

/-- Going on to a block that has not been visited brings a search nearer to its end. -/
theorem left_push (unvisited : b.id ∈ s.todo) : (s.push b).left + 1 = s.left := by
  have shorter := List.length_erase_of_mem unvisited
  have nonempty := List.length_pos_of_mem unvisited
  have longer : (s.push b).path.length = s.path.length + 1 := rfl
  rw [left, left, todo_push, longer]
  omega

theorem Fits.lt_size (fits : s.Fits g) (unvisited : id ∈ s.todo) : id < g.size := by
  rw [← fits.marks]
  exact (List.getElem?_eq_some_iff.1 (mem_todo.1 unvisited)).1

theorem Fits.push (fits : s.Fits g) (here : g.block? b.id = some b) : (s.push b).Fits g where
  marks := by rw [Search.push, List.length_set, fits.marks]
  inside := by
    rintro c (_ | ⟨_, member⟩)
    · exact here
    · exact fits.inside c member
  rooted := fun id member => fits.rooted id (List.mem_of_mem_erase (todo_push s b ▸ member))

theorem Fits.pop {stack : List Block} (fits : s.Fits g) (top : s.stack = b :: stack) :
    Fits g { s with stack } where
  marks := fits.marks
  inside := fun c member => fits.inside c (top ▸ List.mem_cons_of_mem _ member)
  rooted := fits.rooted

/-- A root that has been visited is passed over. -/
theorem Fits.skip (fits : s.Fits g) (visited : s.visited[s.root]? = some true) :
    Fits g { s with root := s.root + 1 } where
  marks := fits.marks
  inside := fits.inside
  rooted := fun id member => by
    have isTodo : s.visited[id]? = some false := mem_todo.1 member
    refine Nat.lt_of_le_of_ne (fits.rooted id member) fun isRoot => ?_
    rw [← isRoot, visited] at isTodo
    cases isTodo

/-- A root that has not been visited is the first block that has not been visited. -/
theorem Fits.todo_root (fits : s.Fits g) (unvisited : s.root ∈ s.todo) :
    ∃ ids, s.todo = s.root :: ids := by
  have sorted : s.todo.Pairwise (· < ·) := List.pairwise_lt_range.filter _
  cases todo : s.todo with
  | nil => simp [todo] at unvisited
  | cons first ids =>
    have least := fits.rooted first (by simp [todo])
    rw [todo] at unvisited sorted
    rcases List.mem_cons.1 unvisited with same | member
    · exact ⟨ids, by rw [same]⟩
    · have := (List.pairwise_cons.1 sorted).1 s.root member
      omega

/-- With no block before the root left, and none from it on, nothing is to be visited. -/
theorem Fits.todo_nil (fits : s.Fits g) (past : s.visited.length ≤ s.root) : s.todo = [] := by
  refine List.eq_nil_iff_forall_not_mem.2 fun id member => ?_
  have below := (List.getElem?_eq_some_iff.1 (mem_todo.1 member)).1
  have above := fits.rooted id member
  omega

theorem rest_eq (s : Search) : s.rest g = Graph.remaining g.succ s.todo s.path := rfl

/-- A search with an empty stack starts again from the first block not yet visited. -/
theorem rest_root {ids : List Nat} (idle : s.stack = []) (todo : s.todo = b.id :: ids) :
    s.rest g = (s.push b).rest g := by
  have smaller : (s.push b).todo = ids := by rw [todo_push, todo, List.erase_cons_head]
  have path : s.path = [] := by rw [Search.path, idle, List.map_nil]
  have onPath : (s.push b).path = [b.id] := by
    rw [Search.path, Search.push, idle, List.map_cons, List.map_nil]
  rw [rest_eq, rest_eq, todo, path, Graph.remaining_root, smaller, onPath]

/-- From the block on top of the stack it goes on to its first successor not yet visited. -/
theorem rest_push {c : Block} {stack : List Block} (top : s.stack = c :: stack)
    (here : g.block? c.id = some c) (found : c.succ.find? s.todo.contains = some b.id) :
    s.rest g = (s.push b).rest g := by
  have path : s.path = c.id :: stack.map Block.id := by rw [Search.path, top, List.map_cons]
  have onPath : (s.push b).path = b.id :: c.id :: stack.map Block.id := by
    rw [← path]
    rfl
  have succ : g.succ c.id = c.succ := by rw [Graph.succ, here, Option.elim_some]
  rw [← succ] at found
  rw [rest_eq, rest_eq, path, Graph.remaining_next found, todo_push, onPath]

/-- If there is none, the block is the next one. -/
theorem rest_pop {c : Block} {stack : List Block} (top : s.stack = c :: stack)
    (here : g.block? c.id = some c) (none : c.succ.find? s.todo.contains = none) :
    s.rest g = c.id :: Search.rest g { s with stack } := by
  have path : s.path = c.id :: stack.map Block.id := by rw [Search.path, top, List.map_cons]
  have succ : g.succ c.id = c.succ := by rw [Graph.succ, here, Option.elim_some]
  rw [← succ] at none
  rw [rest_eq, path, Graph.remaining_leave none]
  rfl

theorem rest_nil (idle : s.stack = []) (done : s.todo = []) : s.rest g = [] := by
  have path : s.path = [] := by rw [Search.path, idle, List.map_nil]
  rw [rest_eq, done, path]
  rfl

end Search

/-! ## One call -/

theorem firstUnvisited_eq {ids : List Nat} (inside : ∀ id ∈ ids, id < s.visited.length) :
    firstUnvisited s.visited ids = pure (ids.find? s.todo.contains) := by
  induction ids with
  | nil => rfl
  | cons id ids ih =>
    obtain ⟨here, later⟩ := List.forall_mem_cons.1 inside
    have mark := List.getElem?_eq_getElem here
    rw [firstUnvisited, index_eq mark, pure_bind, ih later, List.find?_cons]
    have isTodo : s.todo.contains id = !s.visited[id] := by
      rw [Bool.eq_iff_iff, List.contains_iff_mem, Search.mem_todo, mark]
      simp
    rw [isTodo]
    cases s.visited[id] <;> rfl

/-- The search starts again from the first block that has not been visited, if there is one. -/
theorem nextRoot_ends (navigable : g.Navigable) (fits : s.Fits g) (idle : s.stack = []) :
    ∃ next, nextRoot g s = pure next ∧
      match next with
      | none => s.rest g = []
      | some t => t.Fits g ∧ t.stack ≠ [] ∧ t.rest g = s.rest g ∧ t.left < s.left := by
  refine loop_ends
    (fun t => t.Fits g ∧ t.stack = [] ∧ t.visited = s.visited) (fun t => g.size - t.root) _
    ?_ ⟨fits, idle, rfl⟩
  rintro t ⟨fits, idle', same⟩
  obtain ⟨rest, left⟩ := Search.rest_congr (g := g) same (idle'.trans idle.symm)
  by_cases more : t.root < t.visited.length
  · have mark := List.getElem?_eq_getElem more
    cases visited : t.visited[t.root] with
    | true =>
      rw [visited] at mark
      refine Or.inl ⟨{ t with root := t.root + 1 }, ?_, ⟨fits.skip mark, idle', same⟩, ?_⟩
      · rw [if_pos more, index_eq mark, pure_bind]
        rfl
      · have := fits.marks
        show g.size - (t.root + 1) < g.size - t.root
        omega
    | false =>
      rw [visited] at mark
      obtain ⟨b, here⟩ := Graph.block?_of_lt_size (fits.marks ▸ more)
      have place : b.id = t.root := navigable.place here
      obtain ⟨ids, todo⟩ := fits.todo_root (Search.mem_todo.2 mark)
      rw [← place] at todo
      refine Or.inr ⟨some (t.push b), ?_, fits.push (place ▸ here), by simp [Search.push], ?_, ?_⟩
      · have isBlock : index g.blocks t.root = pure b := index_eq here
        rw [if_pos more, index_eq mark, pure_bind, if_neg Bool.false_ne_true, store_eq more,
          pure_bind, isBlock, pure_bind, Search.push, place]
      · rw [← rest, Search.rest_root idle' todo]
      · have lower := Search.left_push (s := t) (b := b) (by simp [todo])
        omega
  · refine Or.inr ⟨none, by rw [if_neg more], ?_⟩
    rw [← rest, Search.rest_nil idle' (fits.todo_nil (Nat.not_lt.1 more))]

/-- A search with blocks on its stack comes to the next block, and never finds the stack empty. -/
theorem descend_ends (navigable : g.Navigable) (fits : s.Fits g) (busy : s.stack ≠ []) :
    ∃ next, descend g s = pure next ∧ next.2.Fits g ∧ g.block? next.1.id = some next.1 ∧
      s.rest g = next.1.id :: next.2.rest g ∧ next.2.left < s.left := by
  refine loop_ends
    (fun t => t.Fits g ∧ t.stack ≠ [] ∧ t.rest g = s.rest g ∧ t.left ≤ s.left) Search.left _
    ?_ ⟨fits, busy, rfl, Nat.le_refl _⟩
  rintro t ⟨fits, busy, rest, left⟩
  obtain ⟨c, stack, top⟩ := List.exists_cons_of_ne_nil busy
  have here : g.block? c.id = some c := fits.inside c (by simp [top])
  have inside : ∀ id ∈ c.succ, id < t.visited.length := by
    intro id member
    rw [fits.marks]
    exact navigable.inside here member
  have first : index t.stack 0 = pure c := index_eq (by simp [top])
  have nonempty : t.stack.isEmpty = false := by simp [top]
  cases found : c.succ.find? t.todo.contains with
  | some id =>
    have unvisited : id ∈ t.todo := by simpa using List.find?_some found
    obtain ⟨b, there⟩ := Graph.block?_of_lt_size (fits.lt_size unvisited)
    obtain rfl := navigable.place there
    have marked : b.id < t.visited.length := fits.marks.symm ▸ fits.lt_size unvisited
    have lower := Search.left_push unvisited
    refine Or.inl ⟨t.push b, ?_, ⟨fits.push there, by simp [Search.push], ?_, by omega⟩, by omega⟩
    · have isBlock : index g.blocks b.id = pure b := index_eq there
      simp only [nonempty, Bool.false_eq_true, if_false, first, pure_bind,
        firstUnvisited_eq inside, found, store_eq marked, isBlock]
      rfl
    · rw [← rest, Search.rest_push top here found]
  | none =>
    refine Or.inr ⟨(c, { t with stack }), ?_, fits.pop top, here, ?_, ?_⟩
    · simp only [nonempty, Bool.false_eq_true, if_false, first, pure_bind,
        firstUnvisited_eq inside, found]
      rw [top, takeFirst_cons, pure_bind]
    · rw [← rest, Search.rest_pop top here found]
    · have path : t.path.length = stack.length + 1 := by simp [Search.path, top]
      have lower : Search.left { t with stack } + 1 = t.left := by
        rw [Search.left, Search.left, path]
        simp only [Search.path, List.length_map]
        rfl
      show Search.left { t with stack } < s.left
      omega

/-- Each call gives the next block, as long as there is one. -/
theorem nextBlock_ends (navigable : g.Navigable) (fits : s.Fits g) :
    ∃ next, nextBlock g s = pure next ∧
      match next with
      | none => s.rest g = []
      | some (b, t) => t.Fits g ∧ g.block? b.id = some b ∧ s.rest g = b.id :: t.rest g ∧
          t.left < s.left := by
  unfold nextBlock
  cases idle : s.stack with
  | nil =>
    obtain ⟨next, found, good⟩ := nextRoot_ends navigable fits idle
    rw [List.isEmpty_nil, if_pos rfl, found, pure_bind]
    cases next with
    | none => exact ⟨none, rfl, good⟩
    | some t =>
      obtain ⟨fits, busy, rest, lower⟩ := good
      obtain ⟨⟨b, u⟩, descended, fits, here, next, lower'⟩ := descend_ends navigable fits busy
      refine ⟨some (b, u), ?_, fits, here, rest ▸ next, lower'.trans lower⟩
      simp only [descended, pure_bind]
  | cons c stack =>
    obtain ⟨⟨b, u⟩, descended, good⟩ := descend_ends navigable fits (by simp [idle])
    refine ⟨some (b, u), ?_, good⟩
    simp only [List.isEmpty_cons, Bool.false_eq_true, if_false, descended, pure_bind]

/-! ## All calls -/

/-- Nothing goes wrong in the search, and it lists the blocks in post-order. -/
theorem postOrder_ends (navigable : g.Navigable) : ∃ blocks, postOrder g = pure blocks ∧
    blocks.map Block.id = g.postOrder ∧ ∀ b ∈ blocks, g.block? b.id = some b := by
  let start : Search := { visited := List.replicate g.size false }
  have todo : start.todo = List.range g.size := by
    refine (List.filter_congr fun id member => ?_).trans (List.filter_true _ |>.trans ?_)
    · have inside : id < g.size := by simpa [start] using member
      simp [start, inside]
    · simp [start]
  have all : start.rest g = g.postOrder := by
    rw [Search.rest, Search.left, todo, List.length_range]
    rfl
  have fits : start.Fits g := ⟨by simp [start], by simp [start], fun id _ => Nat.zero_le id⟩
  refine loop_ends
    (fun turn : Search × List Block => turn.1.Fits g ∧
      turn.2.map Block.id ++ turn.1.rest g = g.postOrder ∧
      ∀ b ∈ turn.2, g.block? b.id = some b)
    (fun turn => turn.1.left) _ ?_ ⟨fits, by simpa using all, by simp⟩
  rintro ⟨t, found⟩ ⟨fits, listed, places⟩
  obtain ⟨next, called, good⟩ := nextBlock_ends navigable fits
  cases next with
  | none =>
    refine Or.inr ⟨found, by simp only [called, pure_bind], ?_, places⟩
    rw [← listed, good, List.append_nil]
  | some next =>
    obtain ⟨b, u⟩ := next
    obtain ⟨fits, here, rest, lower⟩ := good
    refine Or.inl ⟨(u, found ++ [b]), by simp only [called, pure_bind], ⟨fits, ?_, ?_⟩, lower⟩
    · rw [← listed, rest, List.map_append]
      simp
    · intro c member
      rcases List.mem_append.1 member with old | new
      · exact places c old
      · obtain rfl := List.mem_singleton.1 new
        exact here

/-- Two places at the same distance from the ends of a list, outside which its elements have been
exchanged, while between them they have not. -/
structure Exchanged {α : Type} (xs : List α) (ys : List α) (i j : Nat) : Prop where
  opposite : i + j = xs.length - 1
  length : ys.length = xs.length
  each : ∀ k, ys[k]? = if k < i ∨ j < k then xs.reverse[k]? else xs[k]?

namespace Exchanged

variable {α : Type} {xs ys : List α} {i j : Nat}

theorem mirrored (xs : List α) {k l : Nat} (opposite : k + l = xs.length - 1)
    (inside : k < xs.length) : xs.reverse[k]? = xs[l]? := by
  rw [List.getElem?_reverse inside]
  congr 1
  omega

theorem start (xs : List α) : Exchanged xs xs 0 (xs.length - 1) where
  opposite := Nat.zero_add _
  length := rfl
  each := fun k => by
    simp only [Nat.not_lt_zero, false_or]
    split
    · rw [List.getElem?_eq_none (by omega), List.getElem?_eq_none (by simp; omega)]
    · rfl

theorem next (exchanged : Exchanged xs ys i j) (apart : i < j) (insideI : i < ys.length)
    (insideJ : j < ys.length) :
    Exchanged xs ((ys.set i ys[j]).set j ys[i]) (i + 1) (j - 1) where
  opposite := by
    have := exchanged.opposite
    omega
  length := by rw [List.length_set, List.length_set, exchanged.length]
  each := fun k => by
    obtain ⟨opposite, length, each⟩ := exchanged
    have atI : ys[i]? = xs[i]? := by rw [each, if_neg (by omega)]
    have atJ : ys[j]? = xs[j]? := by rw [each, if_neg (by omega)]
    rw [List.getElem?_set, List.getElem?_set, List.length_set]
    by_cases isJ : j = k
    · subst isJ
      rw [if_pos rfl, if_pos insideJ, if_pos (by omega), mirrored xs (Nat.add_comm .. ▸ opposite)
        (by omega), ← atI, List.getElem?_eq_getElem]
    · by_cases isI : i = k
      · subst isI
        rw [if_neg isJ, if_pos rfl, if_pos insideI, if_pos (by omega),
          mirrored xs opposite (by omega), ← atJ, List.getElem?_eq_getElem insideJ]
      · rw [if_neg isJ, if_neg isI, each]
        congr 1
        simp only [eq_iff_iff]
        omega

/-- Where the places meet the list is reversed. -/
theorem done (exchanged : Exchanged xs ys i j) (meet : ¬ i < j) : ys = xs.reverse := by
  obtain ⟨opposite, length, each⟩ := exchanged
  refine List.ext_getElem? fun k => ?_
  rw [each]
  split
  · rfl
  · by_cases inside : k < xs.length
    · exact (mirrored xs (by omega) inside).symm
    · rw [List.getElem?_eq_none (by omega), List.getElem?_eq_none (by simp; omega)]

end Exchanged

/-- Exchanging from both ends reverses a list. -/
theorem exchangeEnds_eq {α : Type} (xs : List α) :
    exchangeEnds (xs, 0, xs.length - 1) = pure xs.reverse := by
  obtain ⟨ys, ends, same⟩ : ∃ ys, exchangeEnds (xs, 0, xs.length - 1) = pure ys ∧
      ys = xs.reverse := by
    refine loop_ends (fun turn : List α × Nat × Nat => Exchanged xs turn.1 turn.2.1 turn.2.2)
      (fun turn => turn.2.2) _ ?_ (Exchanged.start xs)
    rintro ⟨ys, i, j⟩ exchanged
    by_cases apart : i < j
    · have insideJ : j < ys.length := by
        have : i + j = xs.length - 1 := exchanged.opposite
        have : ys.length = xs.length := exchanged.length
        omega
      have insideI : i < ys.length := apart.trans insideJ
      refine Or.inl ⟨((ys.set i ys[j]).set j ys[i], i + 1, j - 1), ?_,
        exchanged.next apart insideI insideJ, by show j - 1 < j; omega⟩
      simp only [if_pos apart, index_eq (List.getElem?_eq_getElem insideI),
        index_eq (List.getElem?_eq_getElem insideJ), pure_bind, store_eq insideI]
      rw [store_eq (by simpa using insideJ), pure_bind]
    · exact Or.inr ⟨ys, by simp only [if_neg apart], exchanged.done apart⟩
  rw [ends, same]

/-- Nothing goes wrong in listing the blocks in reverse post-order. -/
theorem reversePostOrder_ends (navigable : g.Navigable) : ∃ blocks,
    reversePostOrder g = pure blocks ∧ blocks.map Block.id = g.reversePostOrder ∧
      ∀ b ∈ blocks, g.block? b.id = some b := by
  obtain ⟨blocks, listed, order, places⟩ := postOrder_ends navigable
  refine ⟨blocks.reverse, ?_, ?_, fun b member => places b (List.mem_reverse.1 member)⟩
  · rw [reversePostOrder, listed, pure_bind, exchangeEnds_eq]
  · rw [List.map_reverse, order, Graph.reversePostOrder]

end Attempt

end MipsFlow
