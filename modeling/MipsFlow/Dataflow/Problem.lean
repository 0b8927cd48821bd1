import MipsFlow.Graph.Order
import MipsFlow.Dataflow.FactSet
import MipsFlow.Fault

/-!
# Dataflow problems

A problem gives every block the facts that it makes true and the facts that it destroys. Facts
flow along the edges, forward or backward, and meet by union or by intersection where several
edges come together. A solution is found with a queue of the blocks whose facts may have to be
computed again.
-/

namespace MipsFlow

/-- The way in which facts flow. -/
inductive Direction where
  | forward
  | backward
deriving DecidableEq, Repr

/-- How the facts of several neighbours are brought together. -/
inductive Meet where
  | union
  | intersect
deriving DecidableEq, Repr

/-- A gen/kill problem over the blocks of a graph. -/
structure Problem (α : Type) where
  name : String
  direction : Direction
  meet : Meet
  /-- For each block, the facts that it makes true. -/
  gen : List (FactSet α)
  /-- For each block, the facts that it destroys. -/
  kill : List (FactSet α)
  /-- What holds where control comes from or goes out of sight. -/
  boundary : FactSet α
  /-- All facts there are; an intersection over nothing gives them. -/
  everything : Option (FactSet α) := none
  /-- Further blocks where control comes in, for forward problems. -/
  opened : Block → Bool := fun _ => false

/-- The facts at the entry and at the exit of every block, by the place of the block. -/
structure Solution (α : Type) where
  entry : List (FactSet α)
  exit : List (FactSet α)
  /-- The number of times that the facts of a block were computed. -/
  steps : Nat

namespace Solution

variable {α : Type}

/-- The facts at the entry of a block. -/
def entryOf (s : Solution α) (id : Nat) : FactSet α := (s.entry[id]?).getD ⟨[]⟩

/-- The facts at the exit of a block. -/
def exitOf (s : Solution α) (id : Nat) : FactSet α := (s.exit[id]?).getD ⟨[]⟩

end Solution

namespace Problem

variable {α : Type} [DecidableEq α] (p : Problem α)

/-- The neighbours that facts come from. -/
def sources (b : Block) : List Nat :=
  match p.direction with
  | .forward => b.pred
  | .backward => b.succ

/-- The neighbours that facts go to. -/
def sinks (b : Block) : List Nat :=
  match p.direction with
  | .forward => b.succ
  | .backward => b.pred

/-- The boundary facts flow into the block: for a forward problem into the first block, those
without predecessors and those that are opened, for a backward problem into those without
successors. -/
def atBoundary (b : Block) : Bool :=
  match p.direction with
  | .forward => b.id = 0 || b.pred.isEmpty || p.opened b
  | .backward => b.succ.isEmpty

/-- What is assumed of every block at first. -/
def start : FactSet α :=
  match p.meet with
  | .union => .empty
  | .intersect => p.everything.getD .empty

/-- Brings two sets together. -/
def combine (s t : FactSet α) : FactSet α :=
  match p.meet with
  | .union => s.union t
  | .intersect => s.inter t

/-- Brings a list of sets together; nothing at all gives the empty set. -/
def combineAll : List (FactSet α) → FactSet α
  | [] => .empty
  | s :: rest => rest.foldl p.combine s

/-- The facts that flow into a block, given those that flow out of every block. -/
def inflow (out : List (FactSet α)) (b : Block) : FactSet α :=
  p.combineAll ((if p.atBoundary b then [p.boundary] else []) ++
    (p.sources b).map fun id => (out[id]?).getD .empty)

/-- What a block makes of the facts that flow into it. -/
def transfer (b : Block) (facts : FactSet α) : FactSet α :=
  (facts.diff ((p.kill[b.id]?).getD .empty)).union ((p.gen[b.id]?).getD .empty)

/-- The work in progress: what flows into and out of every block, the blocks to be computed again
in order, and how many computations there were. -/
structure Progress (α : Type) where
  into : List (FactSet α)
  out : List (FactSet α)
  queue : List Nat
  steps : Nat

/-- Adds the blocks that are not in the queue yet. -/
def enqueue (queue : List Nat) (ids : List Nat) : List Nat :=
  ids.foldl (fun queue id => if queue.contains id then queue else queue ++ [id]) queue

/-- Computes the facts of the first block in the queue. If they have changed, those that they flow
to are queued. -/
def advance (g : Graph) (w : Progress α) : Progress α :=
  match w.queue with
  | [] => w
  | id :: queue =>
    match g.block? id with
    | none => { w with queue }
    | some b =>
      let facts := p.inflow w.out b
      let result := p.transfer b facts
      let w := { w with into := w.into.set id facts, queue, steps := w.steps + 1 }
      if result.sameAs ((w.out[id]?).getD .empty) then w
      else { w with out := w.out.set id result, queue := enqueue queue (p.sinks b) }

/-- Computes until the queue is empty, at most `fuel` times. -/
def settle (g : Graph) : Nat → Progress α → Progress α
  | 0, w => w
  | fuel + 1, w => if w.queue.isEmpty then w else settle g fuel (p.advance g w)

/-- The number of facts that the problem mentions, counted with repetition. -/
def factCount : Nat :=
  (p.gen.flatMap FactSet.members).length + p.boundary.members.length +
    (p.everything.getD .empty).members.length

/-- A bound on the number of computations. Each fact enters or leaves what flows out of a block at
most once, and each such change queues every block at most once. -/
def fuel (g : Graph) : Nat := g.size * (g.size * p.factCount + 1) + 1

/-- Backward problems start at the end of the program, forward ones at its beginning. -/
def order (g : Graph) : List Nat :=
  match p.direction with
  | .forward => g.reversePostOrder
  | .backward => g.postOrder

/-- The state before the first computation. -/
def initial (g : Graph) : Progress α :=
  { into := List.replicate g.size .empty
    out := List.replicate g.size p.start
    queue := p.order g
    steps := 0 }

/-- Why a problem cannot be posed for a graph. -/
def fault? (g : Graph) : Option Fault :=
  if p.gen.length ≠ g.size ∨ p.kill.length ≠ g.size then some (.factSetCount p.name g.size)
  else if p.meet = .intersect ∧ p.everything.isNone then some (.noUniverse p.name)
  else none

/-- The solution of a problem that can be posed. -/
def solution (g : Graph) : Solution α :=
  let w := p.settle g (p.fuel g) (p.initial g)
  match p.direction with
  | .forward => { entry := w.into, exit := w.out, steps := w.steps }
  | .backward => { entry := w.out, exit := w.into, steps := w.steps }

/-- Solves a problem. -/
def solve (g : Graph) : Except Fault (Solution α) :=
  match p.fault? g with
  | some fault => .error fault
  | none => .ok (p.solution g)

end Problem

end MipsFlow
