import MipsFlow.Optimizer.DeadCode
import MipsFlow.Optimizer.Folding
import MipsFlow.Optimizer.Options
import MipsFlow.Optimizer.Propagation
import MipsFlow.Optimizer.Redundancy
import MipsFlow.Optimizer.Sharing

/-!
# Block passes

A workspace is a graph with its facts. A pass changes one block of it. The facts are not computed
again after every change: those of a block that only lost code stay right, and a pass that changes
another block declares them stale.
-/

namespace MipsFlow

/-- How much work has been done. -/
structure Tally where
  units : Nat := 0
  cycles : Nat := 0
  changes : Nat := 0
  solves : Nat := 0
  iterations : Nat := 0
deriving DecidableEq, Repr

/-- Counts an analysis of all three kinds. -/
def Tally.countAnalysis (t : Tally) (f : Facts) : Tally :=
  { t with solves := t.solves + 3, iterations := t.iterations + f.steps }

/-- A graph that is being worked on. -/
structure Workspace where
  graph : Graph
  facts : Facts
  /-- The facts may not be those of the graph any more. -/
  stale : Bool := false
  nextId : Nat
  tally : Tally := {}

namespace Workspace

/-- Analyses a graph. -/
def create (o : Options) (g : Graph) (nextId : Nat) (tally : Tally) : Workspace :=
  let facts := Facts.analyze g o.reserved
  { graph := g, facts, nextId, tally := tally.countAnalysis facts }

/-- Declares the facts stale. -/
def invalidate (w : Workspace) : Workspace := { w with stale := true }

/-- Computes stale facts again. -/
def refresh (o : Options) (w : Workspace) : Workspace :=
  if w.stale then
    let facts := Facts.analyze w.graph o.reserved
    { w with facts, stale := false, tally := w.tally.countAnalysis facts }
  else w

/-- The workspace after a block was changed. -/
def store (w : Workspace) (id : Nat) (b : BlockCode) : Workspace :=
  { w with graph := w.graph.setCode id b.code, nextId := b.nextId }

end Workspace

/-- A way to improve single blocks. -/
inductive Pass where
  | redundancy
  | sharing
  | folding
  | propagation
  | deadCode
deriving DecidableEq, Repr

namespace Pass

/-- The passes, in the order in which they are applied. -/
def all : List Pass := [.redundancy, .sharing, .folding, .propagation, .deadCode]

/-- Applies a pass to a block, and says whether it changed anything. A fault leaves what had been
done before it. -/
def apply (o : Options) (pass : Pass) (w : Workspace) (b : Block) :
    Workspace × Except Fault Bool :=
  let v := w.facts.view o.annotated b
  let block : BlockCode := ⟨b.code, w.nextId⟩
  match pass with
  | .redundancy => (w.store b.id (Redundancy.run v block), .ok (Redundancy.step v block).isSome)
  | .sharing => (w.store b.id (Sharing.run v block), .ok (Sharing.step v block).isSome)
  | .folding =>
    let outcome := Folding.run v block
    (w.store b.id outcome.block,
      match outcome.fault with
      | some fault => .error fault
      | none => .ok outcome.changed)
  | .propagation =>
    let s := Propagation.run o.annotated w.facts w.graph b.id
    ({ w with graph := s.graph, stale := w.stale || s.elsewhere }, .ok s.changed)
  | .deadCode =>
    (w.store b.id ⟨DeadCode.run v b.code, w.nextId⟩, .ok (DeadCode.step v b.code).isSome)

end Pass

end MipsFlow
