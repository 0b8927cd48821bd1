import MipsFlow.Proofs.Attempts.Orders
import MipsFlow.Proofs.Solver

/-!
# Solving step by step

The solver keeps the facts of every block in two sequences, and a queue of blocks together with a
mark for each block in it. Every computation looks up the facts of the neighbours, and what the
block makes true and destroys, by the places of the blocks.

The queue never has a place that is no block, and never the same block twice (`Line.Lists`), so a
turn comes to the same as the solver's own (`recompute_ends`), and so do all turns.
-/

namespace MipsFlow

namespace Attempt

/-- The blocks to be computed again, and for each block whether it is one of them. -/
structure Line where
  marks : List Bool
  queue : List Block

/-- Facts that are being computed. -/
structure Work (α : Type) where
  /-- What flows into every block. -/
  up : List (FactSet α)
  /-- What flows out of every block. -/
  down : List (FactSet α)
  line : Line
  steps : Nat := 0

/-- Queues a block, unless it is in the queue already. -/
def schedule (g : Graph) (l : Line) (id : Nat) : Attempt Line := do
  if ← index l.marks id then return l
  else
    let marks ← store l.marks id true
    let b ← index g.blocks id
    return ⟨marks, l.queue ++ [b]⟩

/-- Queues all blocks. -/
def lineUp (g : Graph) (blocks : List Block) : Attempt Line := do
  let marks ← blocks.foldlM (fun marks b => store marks b.id true) (List.replicate g.size false)
  return ⟨marks, blocks⟩

section

variable {α : Type} [DecidableEq α] (p : Problem α)

/-- The facts that flow into a block. -/
def meetAt (down : List (FactSet α)) (b : Block) : Attempt (FactSet α) := do
  let sets ← (p.sources b).mapM (index down)
  return p.combineAll ((if p.atBoundary b then [p.boundary] else []) ++ sets)

/-- What a block makes of the facts that flow into it. -/
def passOn (b : Block) (facts : FactSet α) : Attempt (FactSet α) := do
  let kill ← index p.kill b.id
  let gen ← index p.gen b.id
  return (facts.diff kill).union gen

/-- Computes the facts of the first block in the queue. -/
def recompute (g : Graph) (w : Work α) : Attempt (Work α) := do
  let (b, queue) ← takeFirst w.line.queue
  let marks ← store w.line.marks b.id false
  let facts ← meetAt p w.down b
  let up ← store w.up b.id facts
  let result ← passOn p b facts
  if result.sameAs (← index w.down b.id) then
    return { w with up, line := ⟨marks, queue⟩, steps := w.steps + 1 }
  else
    let down ← store w.down b.id result
    let line ← (p.sinks b).foldlM (schedule g) ⟨marks, queue⟩
    return { up, down, line, steps := w.steps + 1 }

/-- Computes until the queue is empty. -/
def settle (g : Graph) : Work α → Attempt (Work α) :=
  loop fun w => do
    if w.line.queue.isEmpty then return .inr w else return .inl (← recompute p g w)

/-- The blocks in the order in which they are computed at first. -/
def order (g : Graph) : Attempt (List Block) :=
  match p.direction with
  | .forward => reversePostOrder g
  | .backward => postOrder g

/-- Solves a problem. -/
def solve (g : Graph) : Attempt (Solution α) := do
  match p.fault? g with
  | some fault => throw (.fault fault)
  | none =>
    let line ← lineUp g (← order p g)
    let w ← settle p g
      { up := List.replicate g.size .empty, down := List.replicate g.size p.start, line }
    match p.direction with
    | .forward => return { entry := w.up, exit := w.down, steps := w.steps }
    | .backward => return { entry := w.down, exit := w.up, steps := w.steps }

end

variable {g : Graph} {b : Block} {l : Line} {ids : List Nat} {id : Nat}

/-! ## The queue -/

/-- The queue has the blocks with the given places, each of them once, and the marks say so. -/
structure Line.Lists (g : Graph) (l : Line) (ids : List Nat) : Prop where
  places : l.queue.map Block.id = ids
  inside : ∀ b ∈ l.queue, g.block? b.id = some b
  marks : l.marks.length = g.size
  marked : ∀ id < g.size, l.marks[id]? = some (ids.contains id)

theorem schedule_ends (regular : g.Regular) (lists : l.Lists g ids) (inside : id < g.size) :
    ∃ l', schedule g l id = pure l' ∧ l'.Lists g (Problem.enqueue ids [id]) := by
  have mark := index_eq (lists.marked id inside)
  cases queued : ids.contains id with
  | true =>
    refine ⟨l, ?_, ?_⟩
    · rw [schedule, mark, pure_bind, queued, if_pos rfl]
    · rwa [Problem.enqueue, List.foldl_cons, List.foldl_nil, queued, if_pos rfl]
  | false =>
    obtain ⟨b, here⟩ := Graph.block?_of_lt_size inside
    have isBlock : index g.blocks id = pure b := index_eq here
    have marked : id < l.marks.length := lists.marks.symm ▸ inside
    refine ⟨⟨l.marks.set id true, l.queue ++ [b]⟩, ?_, ?_⟩
    · rw [schedule, mark, pure_bind, queued, if_neg Bool.false_ne_true, store_eq marked, pure_bind,
        isBlock, pure_bind]
    · rw [Problem.enqueue, List.foldl_cons, List.foldl_nil, queued, if_neg Bool.false_ne_true]
      refine ⟨by simp [lists.places, regular.place here], ?_, by simp [lists.marks], ?_⟩
      · intro c member
        rcases List.mem_append.1 member with old | new
        · exact lists.inside c old
        · obtain rfl := List.mem_singleton.1 new
          rw [regular.place here, here]
      · intro other isPlace
        rw [List.getElem?_set]
        by_cases same : id = other
        · simp [same, lists.marks, isPlace]
        · simp [same, Ne.symm same, lists.marked other isPlace]

/-- Blocks that are queued one after the other are queued together. -/
theorem schedule_all (regular : g.Regular) (lists : l.Lists g ids) {more : List Nat}
    (inside : ∀ id ∈ more, id < g.size) :
    ∃ l', more.foldlM (schedule g) l = pure l' ∧ l'.Lists g (Problem.enqueue ids more) := by
  induction more generalizing l ids with
  | nil => exact ⟨l, rfl, lists⟩
  | cons id more ih =>
    obtain ⟨here, later⟩ := List.forall_mem_cons.1 inside
    obtain ⟨l', scheduled, lists'⟩ := schedule_ends regular lists here
    obtain ⟨l'', all, lists''⟩ := ih lists' later
    exact ⟨l'', by rw [List.foldlM_cons, scheduled, pure_bind, all], lists''⟩

/-- The first block of the queue is taken off it. -/
theorem Line.Lists.tail (lists : l.Lists g (id :: ids))
    (nodup : (id :: ids).Nodup) : ∃ b queue, l.queue = b :: queue ∧ g.block? id = some b ∧
      store l.marks id false = pure (l.marks.set id false) ∧
      Line.Lists g ⟨l.marks.set id false, queue⟩ ids := by
  obtain ⟨once, others⟩ := List.nodup_cons.1 nodup
  cases isQueue : l.queue with
  | nil => simpa [isQueue] using lists.places
  | cons b queue =>
    have places := lists.places
    rw [isQueue, List.map_cons, List.cons.injEq] at places
    obtain ⟨rfl, places⟩ := places
    have here : g.block? b.id = some b := lists.inside b (by simp [isQueue])
    have isPlace : b.id < l.marks.length := lists.marks.symm ▸ Graph.lt_size_of_block? here
    refine ⟨b, queue, rfl, here, store_eq isPlace false, places, ?_, by simp [lists.marks], ?_⟩
    · exact fun c member => lists.inside c (by simp [isQueue, show c ∈ queue from member])
    · intro other isPlace
      rw [List.getElem?_set]
      by_cases same : b.id = other
      · subst same
        simpa [lists.marks, isPlace] using once
      · simp [same, Ne.symm same, lists.marked other isPlace]

/-- All blocks of the graph are lined up in the given order. -/
theorem lineUp_ends {blocks : List Block} (places : ∀ b ∈ blocks, g.block? b.id = some b)
    (all : (blocks.map Block.id).Perm (List.range g.size)) :
    ∃ l, lineUp g blocks = pure l ∧ l.Lists g (blocks.map Block.id) := by
  suffices marks : ∀ (rest : List Block) (marks : List Bool), marks.length = g.size →
      (∀ b ∈ rest, g.block? b.id = some b) →
      ∃ marks', rest.foldlM (fun marks b => store marks b.id true) marks = pure marks' ∧
        marks'.length = g.size ∧ ∀ id < g.size, marks'[id]? = some true ↔
          marks[id]? = some true ∨ id ∈ rest.map Block.id by
    obtain ⟨marks', marked, length, each⟩ :=
      marks blocks (List.replicate g.size false) (by simp) places
    refine ⟨⟨marks', blocks⟩, by rw [lineUp, marked, pure_bind], rfl, places, length, ?_⟩
    intro id inside
    have isMember : id ∈ blocks.map Block.id := all.mem_iff.2 (List.mem_range.2 inside)
    rw [(each id inside).2 (Or.inr isMember)]
    simpa using isMember
  intro rest
  induction rest with
  | nil => exact fun marks length _ => ⟨marks, rfl, length, by simp⟩
  | cons b rest ih =>
    intro marks length places
    obtain ⟨here, later⟩ := List.forall_mem_cons.1 places
    have isPlace : b.id < marks.length := length.symm ▸ Graph.lt_size_of_block? here
    obtain ⟨marks', marked, length', each⟩ := ih (marks.set b.id true) (by simp [length]) later
    refine ⟨marks', by rw [List.foldlM_cons, store_eq isPlace, pure_bind, marked], length', ?_⟩
    intro id inside
    rw [each id inside, List.getElem?_set, List.map_cons, List.mem_cons]
    by_cases same : b.id = id
    · simp [same, length, inside]
    · simp [same, Ne.symm same]

/-! ## One computation -/

section

variable {α : Type} [DecidableEq α] {p : Problem α} {w : Work α}

/-- The work as the solver sees it. -/
def Work.progress (w : Work α) : Problem.Progress α :=
  { into := w.up, out := w.down, queue := w.line.queue.map Block.id, steps := w.steps }

theorem meetAt_eq {down : List (FactSet α)} (inside : ∀ id ∈ p.sources b, id < down.length) :
    meetAt p down b = pure (p.inflow down b) := by
  have each : ∀ id ∈ p.sources b, index down id = pure ((down[id]?).getD .empty) := by
    intro id source
    have there := List.getElem?_eq_getElem (inside id source)
    rw [index_eq there, there, Option.getD_some]
  rw [meetAt, mapM_eq each, pure_bind]
  rfl

theorem passOn_eq {facts : FactSet α} (gen : b.id < p.gen.length) (kill : b.id < p.kill.length) :
    passOn p b facts = pure (p.transfer b facts) := by
  have isGen := List.getElem?_eq_getElem gen
  have isKill := List.getElem?_eq_getElem kill
  rw [passOn, index_eq isKill, pure_bind, index_eq isGen, pure_bind, Problem.transfer, isGen,
    isKill, Option.getD_some, Option.getD_some]

omit [DecidableEq α] in
/-- Every block has the facts that it makes true, and those that it destroys. -/
theorem lengths_of_posed (posed : p.fault? g = none) :
    p.gen.length = g.size ∧ p.kill.length = g.size := by
  unfold Problem.fault? at posed
  split at posed
  · cases posed
  · next right => exact ⟨not_not.1 (not_or.1 right).1, not_not.1 (not_or.1 right).2⟩

/-- A turn succeeds, and comes to the same as one of the solver. -/
theorem recompute_ends (regular : g.Regular) (posed : p.fault? g = none)
    (lists : w.line.Lists g w.progress.queue) (inv : Problem.Invariant p g w.progress)
    (more : w.progress.queue ≠ []) : ∃ w', recompute p g w = pure w' ∧
      w'.progress = p.advance g w.progress ∧ w'.line.Lists g w'.progress.queue := by
  obtain ⟨id, ids, queue⟩ := List.exists_cons_of_ne_nil more
  obtain ⟨genLength, killLength⟩ := lengths_of_posed posed
  rw [queue] at lists
  obtain ⟨b, rest, isFirst, here, marked, lists'⟩ := lists.tail (queue ▸ inv.queueNodup)
  obtain rfl := regular.place here
  have inside := Graph.lt_size_of_block? here
  have upLength : w.up.length = g.size := inv.intoLength
  have downLength : w.down.length = g.size := inv.outLength
  have meets : meetAt p w.down b = pure (p.inflow w.down b) :=
    meetAt_eq fun other source => downLength.symm ▸ p.lt_size_of_mem_sources regular here source
  have passes : passOn p b (p.inflow w.down b) = pure (p.transfer b (p.inflow w.down b)) :=
    passOn_eq (genLength.symm ▸ inside) (killLength.symm ▸ inside)
  have isOld := List.getElem?_eq_getElem (downLength.symm ▸ inside)
  have advanced : p.advance g w.progress =
      if (p.transfer b (p.inflow w.down b)).sameAs ((w.down[b.id]?).getD .empty) then
        ⟨w.up.set b.id (p.inflow w.down b), w.down, ids, w.steps + 1⟩
      else ⟨w.up.set b.id (p.inflow w.down b), w.down.set b.id (p.transfer b (p.inflow w.down b)),
        Problem.enqueue ids (p.sinks b), w.steps + 1⟩ := by
    simp only [Problem.advance, queue, here]
    rfl
  rw [isOld, Option.getD_some] at advanced
  simp only [recompute, isFirst, takeFirst_cons, pure_bind, marked, meets,
    store_eq (show b.id < w.up.length from upLength ▸ inside), passes, index_eq isOld]
  split
  · next same =>
    rw [if_pos same] at advanced
    have progress : Work.progress { w with
        up := w.up.set b.id (p.inflow w.down b)
        line := ⟨w.line.marks.set b.id false, rest⟩
        steps := w.steps + 1 } = p.advance g w.progress := by
      rw [advanced, ← lists'.places]
      rfl
    refine ⟨_, rfl, progress, ?_⟩
    rw [progress, advanced]
    exact lists'
  · next differs =>
    rw [if_neg differs] at advanced
    obtain ⟨line, scheduled, lists''⟩ := schedule_all regular lists'
      fun other sink => p.lt_size_of_mem_sinks regular here sink
    rw [store_eq (show b.id < w.down.length from downLength ▸ inside), pure_bind, scheduled,
      pure_bind]
    have progress : Work.progress
        { up := w.up.set b.id (p.inflow w.down b)
          down := w.down.set b.id (p.transfer b (p.inflow w.down b))
          line
          steps := w.steps + 1 } = p.advance g w.progress := by
      rw [advanced, ← lists''.places]
      rfl
    refine ⟨_, rfl, progress, ?_⟩
    rw [progress, advanced]
    exact lists''

/-! ## All computations -/

/-- The turns end where the solver ends. -/
theorem settle_ends (regular : g.Regular) (posed : p.fault? g = none)
    (lists : w.line.Lists g w.progress.queue) (inv : Problem.Invariant p g w.progress) {fuel : Nat}
    (enough : p.workLeft g w.progress ≤ fuel) :
    ∃ w', settle p g w = pure w' ∧ w'.progress = p.settle g fuel w.progress := by
  refine loop_ends
    (fun v : Work α => v.line.Lists g v.progress.queue ∧ Problem.Invariant p g v.progress ∧
      ∃ left, p.workLeft g v.progress ≤ left ∧
        p.settle g left v.progress = p.settle g fuel w.progress)
    (fun v => p.workLeft g v.progress) _ ?_ ⟨lists, inv, fuel, enough, rfl⟩
  rintro v ⟨lists, inv, left, enough, same⟩
  cases isQueue : v.line.queue with
  | nil =>
    have done : v.progress.queue = [] := by rw [Work.progress, isQueue, List.map_nil]
    refine Or.inr ⟨v, by rw [List.isEmpty_nil, if_pos rfl], ?_⟩
    rw [← same]
    cases left with
    | zero => rfl
    | succ left => rw [Problem.settle, done, List.isEmpty_nil, if_pos rfl]
  | cons b rest =>
    have more : v.progress.queue ≠ [] := by
      rw [Work.progress, isQueue]
      exact List.cons_ne_nil _ _
    obtain ⟨v', computed, progress, lists'⟩ := recompute_ends regular posed lists inv more
    have step := Problem.step_advance inv more
    have inv' := inv.step regular step
    have less := step.workLeft_lt regular inv
    rw [← progress] at inv' less
    refine Or.inl ⟨v', ?_, ⟨lists', inv', left - 1, by omega, ?_⟩, less⟩
    · rw [List.isEmpty_cons, if_neg Bool.false_ne_true, computed, pure_bind]
    · obtain ⟨left, rfl⟩ : ∃ l, left = l + 1 := ⟨left - 1, by omega⟩
      have nonempty : v.progress.queue.isEmpty = false := by
        rw [Bool.eq_false_iff, ne_eq, List.isEmpty_iff]
        exact more
      rw [← same, Problem.settle, nonempty, if_neg Bool.false_ne_true, progress,
        Nat.add_sub_cancel]

omit [DecidableEq α] in
theorem order_ends (p : Problem α) (regular : g.Regular) : ∃ blocks, order p g = pure blocks ∧
    blocks.map Block.id = p.order g ∧ ∀ b ∈ blocks, g.block? b.id = some b := by
  unfold order Problem.order
  cases p.direction with
  | forward => exact reversePostOrder_ends regular.navigable
  | backward => exact postOrder_ends regular.navigable

/-- A problem that is posed for a regular graph is solved, and nothing goes wrong on the way. -/
theorem solve_eq (regular : g.Regular) (posed : p.fault? g = none) :
    solve p g = pure (p.solution g) := by
  obtain ⟨blocks, ordered, order, places⟩ := order_ends p regular
  have all : (blocks.map Block.id).Perm (List.range g.size) := order ▸ p.order_perm g
  obtain ⟨line, linedUp, lists⟩ := lineUp_ends places all
  let start : Work α :=
    { up := List.replicate g.size .empty, down := List.replicate g.size p.start, line }
  have initial : start.progress = p.initial g := by
    have queue : line.queue.map Block.id = p.order g := lists.places.trans order
    rw [Work.progress, queue]
    rfl
  have enough : p.workLeft g start.progress ≤ p.fuel g :=
    initial ▸ Problem.workLeft_initial (p.order_perm g)
  obtain ⟨w, settled, final⟩ := settle_ends (w := start) regular posed
    (by rw [initial, Problem.initial, ← order]; exact lists)
    (initial ▸ Problem.Invariant.initial (p.order_perm g)) enough
  rw [initial] at final
  simp only [start] at settled
  simp only [solve, posed, ordered, pure_bind, linedUp, settled, Problem.solution, ← final]
  cases p.direction <;> rfl

end

end Attempt

end MipsFlow
