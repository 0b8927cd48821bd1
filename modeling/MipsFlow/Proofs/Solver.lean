import Mathlib.Algebra.Order.BigOperators.Group.List
import Mathlib.Algebra.Order.Ring.Nat
import Mathlib.Logic.Relation
import MipsFlow.Dataflow.Problem
import MipsFlow.Proofs.PostOrder

/-!
# The solver finds a solution

A graph is *regular* if its blocks stand at their places and its edges are recorded at both ends.
On a regular graph the solver ends with facts that satisfy the equations of the problem at every
block: `solution_settled`.

The solver takes the first block of a queue. What it relies on does not depend on that, so it is
stated for a *step* that takes any block of the queue and queues others in any order (`Step`), of
which the solver's own is one (`step_advance`).

A fact is *open* at a block if what flows out of the block still says about it what was assumed at
first. One fact does not depend on another and nothing turns a fact around, so computing a block
only ever closes facts (`Invariant.ahead`); when it does it queues the blocks that they flow to, and
the blocks that are not in the queue satisfy their equations (`Invariant.settled`). The fuel covers
the number of open facts (`openCount`).
-/

namespace MipsFlow

/-- Blocks stand at their places, and edges are recorded at both ends. -/
structure Graph.Regular (g : Graph) : Prop where
  place : ∀ {id : Nat} {b : Block}, g.block? id = some b → b.id = id
  succ_pred : ∀ {id next : Nat} {b : Block}, g.block? id = some b → next ∈ b.succ →
    ∃ after, g.block? next = some after ∧ id ∈ after.pred
  pred_succ : ∀ {id last : Nat} {b : Block}, g.block? id = some b → last ∈ b.pred →
    ∃ before, g.block? last = some before ∧ id ∈ before.succ

namespace Graph

variable {g : Graph} {id : Nat} {b : Block}

theorem lt_size_of_block? (here : g.block? id = some b) : id < g.size :=
  (List.getElem?_eq_some_iff.1 here).1

theorem block?_of_lt_size (inside : id < g.size) : ∃ b, g.block? id = some b :=
  ⟨_, List.getElem?_eq_getElem inside⟩

theorem Regular.navigable (regular : g.Regular) : g.Navigable where
  place := regular.place
  inside here edge := by
    obtain ⟨after, there, -⟩ := regular.succ_pred here edge
    exact lt_size_of_block? there

end Graph

namespace Problem

variable {α : Type} [DecidableEq α] {p : Problem α} {g : Graph}

/-! ## The equations -/

theorem mem_foldl_combine_union (union : p.meet = .union) {a : α} {s : FactSet α}
    {sets : List (FactSet α)} : a ∈ sets.foldl p.combine s ↔ a ∈ s ∨ ∃ t ∈ sets, a ∈ t := by
  induction sets generalizing s with
  | nil => simp
  | cons t rest ih =>
    rw [List.foldl_cons, ih]
    simp [combine, union, or_assoc]

theorem mem_foldl_combine_inter (inter : p.meet = .intersect) {a : α} {s : FactSet α}
    {sets : List (FactSet α)} : a ∈ sets.foldl p.combine s ↔ a ∈ s ∧ ∀ t ∈ sets, a ∈ t := by
  induction sets generalizing s with
  | nil => simp
  | cons t rest ih =>
    rw [List.foldl_cons, ih]
    simp [combine, inter, and_assoc]

theorem mem_combineAll_union (union : p.meet = .union) {a : α} {sets : List (FactSet α)} :
    a ∈ p.combineAll sets ↔ ∃ t ∈ sets, a ∈ t := by
  cases sets with
  | nil => simp [combineAll]
  | cons s rest => simp [combineAll, mem_foldl_combine_union union]

theorem mem_combineAll_inter (inter : p.meet = .intersect) {a : α} {sets : List (FactSet α)} :
    a ∈ p.combineAll sets ↔ sets ≠ [] ∧ ∀ t ∈ sets, a ∈ t := by
  cases sets with
  | nil => simp [combineAll]
  | cons s rest => simp [combineAll, mem_foldl_combine_inter inter]

/-- The facts of a block in a list of facts by place. -/
def factsAt (sets : List (FactSet α)) (id : Nat) : FactSet α := (sets[id]?).getD .empty

theorem mem_inflow_union (union : p.meet = .union) {a : α} {out : List (FactSet α)} {b : Block} :
    a ∈ p.inflow out b ↔
      (p.atBoundary b = true ∧ a ∈ p.boundary) ∨ ∃ id ∈ p.sources b, a ∈ factsAt out id := by
  unfold inflow
  rw [mem_combineAll_union union]
  constructor
  · rintro ⟨t, present, member⟩
    rcases List.mem_append.1 present with boundary | source
    · cases atBoundary : p.atBoundary b <;> simp [atBoundary] at boundary
      subst boundary
      exact Or.inl ⟨rfl, member⟩
    · obtain ⟨id, isSource, rfl⟩ := List.mem_map.1 source
      exact Or.inr ⟨id, isSource, member⟩
  · rintro (⟨atBoundary, member⟩ | ⟨id, source, member⟩)
    · exact ⟨p.boundary, by simp [atBoundary], member⟩
    · exact ⟨_, List.mem_append_right _ (List.mem_map.2 ⟨id, source, rfl⟩), member⟩

theorem mem_inflow_inter (inter : p.meet = .intersect) {a : α} {out : List (FactSet α)}
    {b : Block} :
    a ∈ p.inflow out b ↔ (p.atBoundary b = true ∨ p.sources b ≠ []) ∧
      (p.atBoundary b = true → a ∈ p.boundary) ∧ ∀ id ∈ p.sources b, a ∈ factsAt out id := by
  unfold inflow
  rw [mem_combineAll_inter inter]
  cases p.atBoundary b <;> simp [factsAt]

theorem mem_transfer {a : α} {b : Block} {facts : FactSet α} :
    a ∈ p.transfer b facts ↔
      (a ∈ facts ∧ a ∉ factsAt p.kill b.id) ∨ a ∈ factsAt p.gen b.id := by
  simp [transfer, factsAt]

/-- What meets at a block, given what flows out of every block: the facts of its sources, and the
boundary facts if it is at the boundary. -/
def met (p : Problem α) (b : Block) (out : Nat → Set α) : Set α :=
  match p.meet with
  | .union => {a | (p.atBoundary b = true ∧ a ∈ p.boundary) ∨ ∃ id ∈ p.sources b, a ∈ out id}
  | .intersect => {a | (p.atBoundary b = true → a ∈ p.boundary) ∧ ∀ id ∈ p.sources b, a ∈ out id}

omit [DecidableEq α] in
/-- Something meets at every block. -/
theorem atBoundary_or_sources (p : Problem α) (b : Block) :
    p.atBoundary b = true ∨ p.sources b ≠ [] := by
  cases direction : p.direction with
  | forward =>
    simp only [atBoundary, sources, direction, Bool.or_eq_true, List.isEmpty_iff]
    exact (Decidable.em (b.pred = [])).imp (fun none => Or.inl (Or.inr none)) id
  | backward =>
    simp only [atBoundary, sources, direction, List.isEmpty_iff]
    exact Decidable.em (b.succ = [])

theorem mem_inflow {a : α} {out : List (FactSet α)} {b : Block} :
    a ∈ p.inflow out b ↔ a ∈ p.met b fun id => {x | x ∈ factsAt out id} := by
  cases meet : p.meet with
  | union => simp only [mem_inflow_union meet, met, meet, Set.mem_ofPred_eq]
  | intersect =>
    simp only [mem_inflow_inter meet, met, meet, Set.mem_ofPred_eq]
    exact and_iff_right (p.atBoundary_or_sources b)

omit [DecidableEq α] in
/-- What meets at a block about one fact depends on that fact only, and grows with it. -/
theorem met_mono {a : α} {b : Block} {out out' : Nat → Set α}
    (grows : ∀ id ∈ p.sources b, a ∈ out id → a ∈ out' id) (member : a ∈ p.met b out) :
    a ∈ p.met b out' := by
  cases meet : p.meet with
  | union =>
    simp only [met, meet, Set.mem_ofPred_eq] at member ⊢
    exact member.imp_right fun ⟨id, source, known⟩ => ⟨id, source, grows id source known⟩
  | intersect =>
    simp only [met, meet, Set.mem_ofPred_eq] at member ⊢
    exact ⟨member.1, fun id source => grows id source (member.2 id source)⟩

/-- What flows into and out of a block satisfies the equations of the problem. -/
def Settled (p : Problem α) (w : Progress α) (id : Nat) (b : Block) : Prop :=
  (∀ a, a ∈ factsAt w.into id ↔ a ∈ p.inflow w.out b) ∧
    ∀ a, a ∈ factsAt w.out id ↔ a ∈ p.transfer b (p.inflow w.out b)

/-! ## Open facts -/

/-- The set says about the fact what is assumed of every block at first. -/
def isOpen (p : Problem α) (s : FactSet α) (a : α) : Bool := s.contains a == p.start.contains a

/-- The second set closes facts of the first and opens none. -/
def Closes (p : Problem α) (s t : FactSet α) : Prop :=
  ∀ a, p.isOpen t a = true → p.isOpen s a = true

theorem isOpen_iff {s : FactSet α} {a : α} : p.isOpen s a = true ↔ (a ∈ s ↔ a ∈ p.start) := by
  rw [isOpen, beq_iff_eq, Bool.eq_iff_iff, FactSet.contains_iff, FactSet.contains_iff]

/-- Facts that are assumed at first can only go, others can only come. -/
theorem closes_iff {s t : FactSet α} :
    p.Closes s t ↔ ∀ a, (a ∈ p.start → a ∈ t → a ∈ s) ∧ (a ∉ p.start → a ∈ s → a ∈ t) := by
  refine forall_congr' fun a => ?_
  rw [isOpen_iff, isOpen_iff]
  by_cases assumed : a ∈ p.start <;> simp only [assumed, iff_true, iff_false, true_imp_iff,
    not_true_eq_false, not_false_eq_true, false_imp_iff, and_true, true_and]
  exact Decidable.not_imp_not

/-- Every fact that the problem mentions. -/
def mentioned (p : Problem α) : List α :=
  p.gen.flatMap (·.members) ++ p.boundary.members ++ (p.everything.getD .empty).members

/-- The number of open facts of a set. -/
def openCount (p : Problem α) (s : FactSet α) : Nat := p.mentioned.countP (p.isOpen s)

omit [DecidableEq α] in
theorem length_mentioned : p.mentioned.length = p.factCount := by
  simp [mentioned, factCount, List.length_flatMap, Nat.add_assoc]

theorem openCount_le (s : FactSet α) : p.openCount s ≤ p.factCount := by
  rw [← length_mentioned]
  exact List.countP_le_length

omit [DecidableEq α] in
theorem mem_mentioned_of_gen {a : α} {id : Nat} (member : a ∈ factsAt p.gen id) :
    a ∈ p.mentioned := by
  unfold factsAt at member
  cases here : p.gen[id]? with
  | none => simp [here] at member
  | some s =>
    simp only [here, Option.getD_some] at member
    refine List.mem_append_left _ (List.mem_append_left _ (List.mem_flatMap.2 ⟨s, ?_, member⟩))
    exact List.mem_of_getElem? here

omit [DecidableEq α] in
theorem mem_mentioned_of_boundary {a : α} (member : a ∈ p.boundary) : a ∈ p.mentioned :=
  List.mem_append_left _ (List.mem_append_right _ member)

/-- Closing a mentioned fact lowers the number of open ones. -/
theorem openCount_lt {s t : FactSet α} {a : α} (closes : p.Closes s t) (member : a ∈ p.mentioned)
    (before : p.isOpen s a = true) (after : p.isOpen t a = false) :
    p.openCount t < p.openCount s := by
  obtain ⟨first, last, split⟩ := List.append_of_mem member
  have keeps : ∀ facts : List α, facts.countP (p.isOpen t) ≤ facts.countP (p.isOpen s) :=
    fun facts => List.countP_mono_left fun x _ => closes x
  have here := keeps first
  have there := keeps last
  simp only [openCount, split, List.countP_append, List.countP_cons, before, after]
  simp only [if_true, Bool.false_eq_true, if_false]
  omega

theorem openCount_le_of_closes {s t : FactSet α} (closes : p.Closes s t) :
    p.openCount t ≤ p.openCount s :=
  List.countP_mono_left fun a _ => closes a

/-! ## Computing a block -/

omit [DecidableEq α] in
theorem factsAt_set (sets : List (FactSet α)) {id : Nat} (inside : id < sets.length)
    (s : FactSet α) (other : Nat) :
    factsAt (sets.set id s) other = if other = id then s else factsAt sets other := by
  unfold factsAt
  rw [List.getElem?_set]
  by_cases same : other = id
  · subst same
    simp [inside]
  · rw [if_neg (Ne.symm same), if_neg same]

/-- What flows into a block depends on what flows out of its sources only. -/
theorem inflow_congr {out out' : List (FactSet α)} {b : Block}
    (same : ∀ id ∈ p.sources b, factsAt out id = factsAt out' id) :
    p.inflow out b = p.inflow out' b := by
  have sources : (p.sources b).map (fun id => (out[id]?).getD .empty) =
      (p.sources b).map fun id => (out'[id]?).getD .empty := List.map_congr_left same
  unfold inflow
  rw [sources]

/-- What a block makes of a fact grows with what is known of it elsewhere. -/
theorem mem_transfer_mono {out out' : List (FactSet α)} {b : Block} {a : α}
    (grows : ∀ id, a ∈ factsAt out id → a ∈ factsAt out' id)
    (member : a ∈ p.transfer b (p.inflow out b)) : a ∈ p.transfer b (p.inflow out' b) := by
  rw [mem_transfer, mem_inflow] at member ⊢
  exact member.imp_left (And.imp_left (met_mono fun id _ => grows id))

/-- Computing a block closes more if more is closed around it. -/
theorem transfer_closes {out out' : List (FactSet α)} (b : Block)
    (closes : ∀ id, p.Closes (factsAt out id) (factsAt out' id)) :
    p.Closes (p.transfer b (p.inflow out b)) (p.transfer b (p.inflow out' b)) := by
  refine closes_iff.2 fun a => ⟨fun assumed => ?_, fun unassumed => ?_⟩
  · exact mem_transfer_mono fun id => (closes_iff.1 (closes id) a).1 assumed
  · exact mem_transfer_mono fun id => (closes_iff.1 (closes id) a).2 unassumed

theorem mem_mentioned_of_transfer {out : List (FactSet α)} {b : Block}
    (within : ∀ id a, a ∈ factsAt out id → a ∈ p.mentioned) {a : α}
    (member : a ∈ p.transfer b (p.inflow out b)) : a ∈ p.mentioned := by
  rcases mem_transfer.1 member with ⟨flows, -⟩ | made
  · cases meet : p.meet with
    | union =>
      rcases (mem_inflow_union meet).1 flows with ⟨-, boundary⟩ | ⟨id, -, known⟩
      · exact mem_mentioned_of_boundary boundary
      · exact within id a known
    | intersect =>
      obtain ⟨some, boundary, known⟩ := (mem_inflow_inter meet).1 flows
      rcases some with atBoundary | sources
      · exact mem_mentioned_of_boundary (boundary atBoundary)
      · obtain ⟨id, source⟩ := List.exists_mem_of_ne_nil _ sources
        exact within id a (known id source)
  · exact mem_mentioned_of_gen made

/-! ## The invariant of the work in progress -/

/-- What holds of the work in progress at all times. -/
structure Invariant (p : Problem α) (g : Graph) (w : Progress α) : Prop where
  intoLength : w.into.length = g.size
  outLength : w.out.length = g.size
  queueNodup : w.queue.Nodup
  queueInside : ∀ id ∈ w.queue, id < g.size
  within : ∀ id a, a ∈ factsAt w.out id → a ∈ p.mentioned
  /-- Computing a block only closes facts. -/
  ahead : ∀ id b, g.block? id = some b →
    p.Closes (factsAt w.out id) (p.transfer b (p.inflow w.out b))
  settled : ∀ id b, g.block? id = some b → id ∉ w.queue → p.Settled w id b

/-- The number of open facts of all blocks. -/
def openTotal (p : Problem α) (g : Graph) (w : Progress α) : Nat :=
  ((List.range g.size).map fun id => p.openCount (factsAt w.out id)).sum

/-- A bound on the number of computations that are left. -/
def workLeft (p : Problem α) (g : Graph) (w : Progress α) : Nat :=
  g.size * p.openTotal g w + w.queue.length

theorem mem_enqueue {queue ids : List Nat} {id : Nat} :
    id ∈ enqueue queue ids ↔ id ∈ queue ∨ id ∈ ids := by
  unfold enqueue
  induction ids generalizing queue with
  | nil => simp
  | cons first rest ih =>
    rw [List.foldl_cons, ih]
    by_cases present : first ∈ queue
    · have contained : queue.contains first = true := by simpa using present
      rw [contained, if_pos rfl, List.mem_cons]
      constructor
      · rintro (old | new)
        · exact Or.inl old
        · exact Or.inr (Or.inr new)
      · rintro (old | rfl | new)
        · exact Or.inl old
        · exact Or.inl present
        · exact Or.inr new
    · have missing : queue.contains first = false := by simpa using present
      rw [missing]
      simp [or_assoc]

theorem nodup_enqueue {queue ids : List Nat} (nodup : queue.Nodup) :
    (enqueue queue ids).Nodup := by
  unfold enqueue
  induction ids generalizing queue with
  | nil => exact nodup
  | cons first rest ih =>
    rw [List.foldl_cons]
    refine ih ?_
    split
    · exact nodup
    · next missing =>
      refine List.nodup_append.2 ⟨nodup, by simp, ?_⟩
      rintro a old b new rfl
      rw [List.mem_singleton] at new
      subst new
      exact missing (by simpa using old)

theorem length_queue_le {w : Progress α} (inv : Invariant p g w) : w.queue.length ≤ g.size := by
  have inside : w.queue ⊆ List.range g.size := fun id queued =>
    List.mem_range.2 (inv.queueInside id queued)
  simpa using inv.queueNodup.length_le_of_subset inside

omit [DecidableEq α] in
theorem mem_sinks (regular : g.Regular) {id other : Nat} {b c : Block}
    (here : g.block? id = some b) (there : g.block? other = some c)
    (source : id ∈ p.sources c) : other ∈ p.sinks b := by
  cases direction : p.direction with
  | forward =>
    simp only [sources, sinks, direction] at source ⊢
    obtain ⟨before, isBefore, edge⟩ := regular.pred_succ there source
    rw [here] at isBefore
    cases isBefore
    exact edge
  | backward =>
    simp only [sources, sinks, direction] at source ⊢
    obtain ⟨after, isAfter, edge⟩ := regular.succ_pred there source
    rw [here] at isAfter
    cases isAfter
    exact edge

omit [DecidableEq α] in
theorem lt_size_of_mem_sinks (regular : g.Regular) {id other : Nat} {b : Block}
    (here : g.block? id = some b) (sink : other ∈ p.sinks b) : other < g.size := by
  cases direction : p.direction with
  | forward =>
    simp only [sinks, direction] at sink
    obtain ⟨after, isAfter, -⟩ := regular.succ_pred here sink
    exact Graph.lt_size_of_block? isAfter
  | backward =>
    simp only [sinks, direction] at sink
    obtain ⟨before, isBefore, -⟩ := regular.pred_succ here sink
    exact Graph.lt_size_of_block? isBefore

omit [DecidableEq α] in
theorem lt_size_of_mem_sources (regular : g.Regular) {id other : Nat} {b : Block}
    (here : g.block? id = some b) (source : other ∈ p.sources b) : other < g.size := by
  cases direction : p.direction with
  | forward =>
    simp only [sources, direction] at source
    obtain ⟨before, isBefore, -⟩ := regular.pred_succ here source
    exact Graph.lt_size_of_block? isBefore
  | backward =>
    simp only [sources, direction] at source
    obtain ⟨after, isAfter, -⟩ := regular.succ_pred here source
    exact Graph.lt_size_of_block? isAfter

/-- A set that only closes facts, and is not the same, closes one of them. -/
theorem exists_closed {s t : FactSet α} (closes : p.Closes s t) (differ : t.sameAs s = false) :
    ∃ a, (a ∈ s ∨ a ∈ t) ∧ p.isOpen s a = true ∧ p.isOpen t a = false := by
  have differs : ¬ ∀ a, a ∈ t ↔ a ∈ s := by
    rw [← FactSet.sameAs_iff, differ]
    exact Bool.false_ne_true
  obtain ⟨a, differ⟩ := not_forall.1 differs
  obtain ⟨goes, comes⟩ := closes_iff.1 closes a
  refine ⟨a, ?_⟩
  rw [Bool.eq_false_iff, ne_eq, isOpen_iff, isOpen_iff]
  by_cases assumed : a ∈ p.start
  · have := goes assumed
    grind
  · have := comes assumed
    grind

/-! ## One computation -/

/-- Some block of the queue is computed. If what flows out of it has changed, the blocks that it
flows to are queued. The queue may be in any order. -/
inductive Step (p : Problem α) (g : Graph) (w : Progress α) : Progress α → Prop
  | same {id : Nat} {b : Block} {queue : List Nat} (queued : w.queue.Perm (id :: queue))
      (here : g.block? id = some b)
      (same : (p.transfer b (p.inflow w.out b)).sameAs (factsAt w.out id) = true) :
      Step p g w
        { into := w.into.set id (p.inflow w.out b)
          out := w.out
          queue
          steps := w.steps + 1 }
  | changed {id : Nat} {b : Block} {queue queue' : List Nat}
      (queued : w.queue.Perm (id :: queue)) (here : g.block? id = some b)
      (changed : (p.transfer b (p.inflow w.out b)).sameAs (factsAt w.out id) = false)
      (nodup : queue'.Nodup)
      (members : ∀ other, other ∈ queue' ↔ other ∈ queue ∨ other ∈ p.sinks b) :
      Step p g w
        { into := w.into.set id (p.inflow w.out b)
          out := w.out.set id (p.transfer b (p.inflow w.out b))
          queue := queue'
          steps := w.steps + 1 }

/-- The solver takes a step. -/
theorem step_advance {w : Progress α} (inv : Invariant p g w) (more : w.queue ≠ []) :
    Step p g w (p.advance g w) := by
  cases first : w.queue with
  | nil => exact absurd first more
  | cons id queue =>
    have inside : id < g.size := inv.queueInside id (by simp [first])
    have nodup := inv.queueNodup
    rw [first, List.nodup_cons] at nodup
    obtain ⟨b, here⟩ := Graph.block?_of_lt_size inside
    unfold Problem.advance
    simp only [first, here]
    split
    · next same => exact .same (first ▸ List.Perm.refl _) here same
    · next changed =>
      exact .changed (first ▸ List.Perm.refl _) here (Bool.eq_false_iff.2 changed)
        (nodup_enqueue nodup.2) fun other => mem_enqueue

/-- A step only closes facts. -/
theorem Step.closes {w w' : Progress α} (step : Step p g w w') (inv : Invariant p g w) (id : Nat) :
    p.Closes (factsAt w.out id) (factsAt w'.out id) := by
  cases step with
  | same => exact fun a isOpen => isOpen
  | @changed here' b queue queue' queued here changed nodup members =>
    have inside := Graph.lt_size_of_block? here
    rw [factsAt_set w.out (inv.outLength.symm ▸ inside)]
    split
    · next isHere => rw [isHere]; exact inv.ahead here' b here
    · exact fun a isOpen => isOpen

/-- A step keeps the invariant. -/
theorem Invariant.step (regular : g.Regular) {w w' : Progress α} (inv : Invariant p g w)
    (step : Step p g w w') : Invariant p g w' := by
  have closes := step.closes inv
  cases step with
  | @same id b queue queued here same =>
    have nodup := queued.nodup_iff.1 inv.queueNodup
    rw [List.nodup_cons] at nodup
    have inside := Graph.lt_size_of_block? here
    have intoAt := factsAt_set w.into (inv.intoLength.symm ▸ inside) (p.inflow w.out b)
    have unchanged : ∀ a, a ∈ p.transfer b (p.inflow w.out b) ↔ a ∈ factsAt w.out id :=
      FactSet.sameAs_iff.1 same
    refine ⟨by simpa using inv.intoLength, inv.outLength, nodup.2, ?_, inv.within, inv.ahead, ?_⟩
    · intro other queuedThere
      exact inv.queueInside other (queued.mem_iff.2 (List.mem_cons_of_mem _ queuedThere))
    · intro other c there idle
      by_cases isHere : other = id
      · subst isHere
        rw [here] at there
        obtain rfl := Option.some.inj there
        exact ⟨fun a => by simp only [intoAt, if_true], fun a => (unchanged a).symm⟩
      · obtain ⟨flowsIn, flowsOut⟩ := inv.settled other c there (by
          rw [queued.mem_iff]
          simp [isHere, idle])
        exact ⟨fun a => by simpa only [intoAt, isHere, if_false] using flowsIn a, flowsOut⟩
  | @changed id b queue queue' queued here changed nodup members =>
    have inside := Graph.lt_size_of_block? here
    have intoAt := factsAt_set w.into (inv.intoLength.symm ▸ inside) (p.inflow w.out b)
    have outAt := factsAt_set w.out (inv.outLength.symm ▸ inside)
      (p.transfer b (p.inflow w.out b))
    refine ⟨by simpa using inv.intoLength, by simpa using inv.outLength, nodup, ?_, ?_, ?_, ?_⟩
    · intro other queuedThere
      rcases (members other).1 queuedThere with old | sink
      · exact inv.queueInside other (queued.mem_iff.2 (List.mem_cons_of_mem _ old))
      · exact lt_size_of_mem_sinks regular here sink
    · intro other a member
      rw [outAt] at member
      split at member
      · exact mem_mentioned_of_transfer inv.within member
      · exact inv.within other a member
    · intro other c there
      rw [outAt]
      split
      · next isHere =>
        subst isHere
        rw [here] at there
        obtain rfl := Option.some.inj there
        exact transfer_closes b closes
      · exact fun a opened => inv.ahead other c there a (transfer_closes c closes a opened)
    · intro other c there idle
      rw [members, not_or] at idle
      -- the facts of this block did not come from the one that was computed
      have sameFlow : p.inflow (w.out.set id (p.transfer b (p.inflow w.out b))) c =
          p.inflow w.out c := by
        refine inflow_congr fun source isSource => ?_
        rw [outAt, if_neg]
        rintro rfl
        exact idle.2 (mem_sinks regular here there isSource)
      unfold Settled
      simp only [sameFlow, intoAt, outAt]
      by_cases isHere : other = id
      · subst isHere
        rw [here] at there
        obtain rfl := Option.some.inj there
        simp
      · simp only [isHere, if_false]
        refine inv.settled other c there ?_
        rw [queued.mem_iff]
        simp [isHere, idle.1]

/-- A change closes a fact. -/
theorem openTotal_lt {w w' : Progress α} {id : Nat} {b : Block} (inv : Invariant p g w)
    (here : g.block? id = some b)
    (changed : (p.transfer b (p.inflow w.out b)).sameAs (factsAt w.out id) = false)
    (closes : ∀ other, p.Closes (factsAt w.out other) (factsAt w'.out other))
    (computed : factsAt w'.out id = p.transfer b (p.inflow w.out b)) :
    p.openTotal g w' < p.openTotal g w := by
  obtain ⟨a, member, isOpen, isClosed⟩ := exists_closed (inv.ahead id b here) changed
  have mentioned : a ∈ p.mentioned :=
    member.elim (inv.within id a) (mem_mentioned_of_transfer inv.within)
  refine List.sum_lt_sum _ _ (fun other _ => openCount_le_of_closes (closes other)) ?_
  refine ⟨id, List.mem_range.2 (Graph.lt_size_of_block? here), ?_⟩
  rw [computed]
  exact openCount_lt (inv.ahead id b here) mentioned isOpen isClosed

/-- A step leaves less to do: it takes a block from the queue, or closes a fact, and a queue holds
no block twice. -/
theorem Step.workLeft_lt (regular : g.Regular) {w w' : Progress α} (step : Step p g w w')
    (inv : Invariant p g w) : p.workLeft g w' < p.workLeft g w := by
  have bound := length_queue_le (inv.step regular step)
  have closes := step.closes inv
  cases step with
  | same queued =>
    have shorter := queued.length_eq
    simp only [workLeft, openTotal, List.length_cons] at shorter ⊢
    omega
  | changed queued here changed =>
    have inside := Graph.lt_size_of_block? here
    have fewer := openTotal_lt inv here changed closes
      (by rw [factsAt_set w.out (inv.outLength.symm ▸ inside), if_pos rfl])
    have less := Nat.mul_le_mul_left g.size (Nat.succ_le_of_lt fewer)
    have shorter := queued.length_eq
    rw [Nat.mul_succ] at less
    simp only [workLeft, List.length_cons] at *
    omega

/-- Steps, one after the other. -/
abbrev Run (p : Problem α) (g : Graph) : Progress α → Progress α → Prop :=
  Relation.ReflTransGen (Step p g)

/-- A run keeps the invariant, and has no more steps than there was to do. -/
theorem Invariant.run (regular : g.Regular) {w w' : Progress α} (inv : Invariant p g w)
    (run : Run p g w w') :
    Invariant p g w' ∧ w'.steps + p.workLeft g w' ≤ w.steps + p.workLeft g w := by
  induction run with
  | refl => exact ⟨inv, Nat.le_refl _⟩
  | tail _ step ih =>
    obtain ⟨inv, less⟩ := ih
    have fewer := step.workLeft_lt regular inv
    have counted : ∀ {v v' : Progress α}, Step p g v v' → v'.steps = v.steps + 1 := by
      rintro v v' (_ | _) <;> rfl
    have := counted step
    exact ⟨inv.step regular step, by omega⟩

/-- With enough fuel the solver runs until the queue is empty. -/
theorem Invariant.settle (regular : g.Regular) {fuel : Nat} {w : Progress α}
    (inv : Invariant p g w) (enough : p.workLeft g w ≤ fuel) :
    Run p g w (p.settle g fuel w) ∧ (p.settle g fuel w).queue = [] := by
  induction fuel generalizing w with
  | zero =>
    refine ⟨.refl, List.eq_nil_of_length_eq_zero ?_⟩
    simp only [workLeft] at enough
    simp only [Problem.settle]
    omega
  | succ fuel ih =>
    unfold Problem.settle
    split
    · next isEmpty => exact ⟨.refl, List.isEmpty_iff.1 isEmpty⟩
    · next more =>
      have step := step_advance inv fun none => more (by simp [none])
      have less := step.workLeft_lt regular inv
      obtain ⟨run, done⟩ := ih (inv.step regular step) (by omega)
      exact ⟨run.head step, done⟩

/-! ## The solution -/

/-- The state before the first computation, with the blocks in any order. -/
def startWith (p : Problem α) (g : Graph) (queue : List Nat) : Progress α :=
  { into := List.replicate g.size .empty
    out := List.replicate g.size p.start
    queue
    steps := 0 }

omit [DecidableEq α] in
theorem factsAt_startWith {queue : List Nat} {id : Nat} (inside : id < g.size) :
    factsAt (p.startWith g queue).out id = p.start := by
  simp [factsAt, startWith, inside]

omit [DecidableEq α] in
theorem order_perm (p : Problem α) (g : Graph) : (p.order g).Perm (List.range g.size) := by
  unfold Problem.order
  cases p.direction
  · exact g.reversePostOrder_perm
  · exact g.postOrder_perm

/-- Nothing has been computed, and all blocks are queued. -/
theorem Invariant.initial {queue : List Nat} (order : queue.Perm (List.range g.size)) :
    Invariant p g (p.startWith g queue) := by
  have within : ∀ id a, a ∈ factsAt (p.startWith g queue).out id → a ∈ p.start := by
    intro id a member
    unfold factsAt startWith at member
    rw [List.getElem?_replicate] at member
    split at member
    · exact member
    · simp at member
  refine ⟨by simp [startWith], by simp [startWith], ?_, ?_, ?_, ?_, ?_⟩
  · exact order.nodup_iff.2 List.nodup_range
  · exact fun id queued => List.mem_range.1 (order.mem_iff.1 queued)
  · intro id a member
    have assumed := within id a member
    refine List.mem_append_right _ ?_
    unfold start at assumed
    split at assumed
    · simp at assumed
    · exact assumed
  · intro id b here
    refine closes_iff.2 fun a => ⟨fun assumed _ => ?_, fun unassumed member => ?_⟩
    · exact (factsAt_startWith (Graph.lt_size_of_block? here)).symm ▸ assumed
    · exact absurd (within id a member) unassumed
  · intro id b here idle
    exact absurd (order.mem_iff.2 (List.mem_range.2 (Graph.lt_size_of_block? here))) idle

theorem workLeft_initial {queue : List Nat} (order : queue.Perm (List.range g.size)) :
    p.workLeft g (p.startWith g queue) ≤ p.fuel g := by
  have total : p.openTotal g (p.startWith g queue) ≤ g.size * p.factCount := by
    unfold openTotal
    have bound := List.sum_le_card_nsmul
      ((List.range g.size).map fun id => p.openCount (factsAt (p.startWith g queue).out id))
      p.factCount
      (by
        intro count member
        obtain ⟨id, -, rfl⟩ := List.mem_map.1 member
        exact openCount_le _)
    simpa using bound
  have length : (p.startWith g queue).queue.length = g.size := by
    simpa [startWith] using order.length_eq
  have less := Nat.mul_le_mul_left g.size total
  simp only [workLeft, fuel, length, Nat.mul_add]
  omega

/-- The solver runs from its first state until the queue is empty. -/
theorem solution_run (regular : g.Regular) :
    Run p g (p.initial g) (p.settle g (p.fuel g) (p.initial g)) ∧
      (p.settle g (p.fuel g) (p.initial g)).queue = [] :=
  Invariant.settle regular (Invariant.initial (p.order_perm g)) (workLeft_initial (p.order_perm g))

/-- The solver ends with facts that satisfy the equations at every block. -/
theorem solution_settled (regular : g.Regular) {id : Nat} {b : Block}
    (here : g.block? id = some b) : p.Settled (p.settle g (p.fuel g) (p.initial g)) id b := by
  obtain ⟨run, done⟩ := solution_run (p := p) regular
  obtain ⟨inv, -⟩ := Invariant.run regular (Invariant.initial (p.order_perm g)) run
  exact inv.settled id b here (by simp [done])

end Problem

end MipsFlow
