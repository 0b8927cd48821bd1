import MipsFlow.Dataflow.Report
import MipsFlow.Graph.Build
import MipsFlow.Optimizer.Jumps
import MipsFlow.Optimizer.Workspace
import MipsFlow.Program

/-!
# The optimizer

A cycle simplifies the jumps of the flat program, cuts it into blocks, and applies every pass to
every block until none of them changes it. Cycles repeat until one changes nothing. Both loops give
up after the number of rounds that the options allow, and the program is then what it has become.
-/

namespace MipsFlow

/-- The size of a program along the way, in commands and labels. -/
structure Summary where
  initial : Nat := 0
  /-- After the jumps of the first cycle. -/
  afterGlobal : Nat := 0
  final : Nat := 0
  cycles : Nat := 0
  /-- The greatest size after any cycle, or the initial one. -/
  peak : Nat := 0
deriving DecidableEq, Repr

namespace Optimizer

/-! ## One block -/

/-- Applies a pass to the block with the given place, then refreshes the facts. -/
def applyAt (o : Options) (id : Nat) (w : Workspace) (pass : Pass) :
    Except Fault (Workspace × Bool) :=
  match w.graph.block? id with
  | none => .ok (w, false)
  | some b =>
    match pass.apply o w b with
    | (_, .error fault) => .error fault
    | (w, .ok changed) =>
      let w := if changed then { w with tally.changes := w.tally.changes + 1 } else w
      .ok (w.refresh o, changed)

/-- Applies some passes in order, and says whether any of them changed the block. -/
def round (o : Options) (id : Nat) (w : Workspace) : List Pass → Except Fault (Workspace × Bool)
  | [] => .ok (w, false)
  | pass :: passes => do
    let (w, changed) ← applyAt o id w pass
    let (w, more) ← round o id w passes
    return (w, changed || more)

/-- How the rounds over a block ended. -/
structure BlockOutcome where
  workspace : Workspace
  /-- A round changed the block. -/
  changed : Bool
  /-- The last round changed nothing. -/
  stable : Bool

/-- Applies all passes to a block until none changes it, at most `limit` times. -/
def settleBlock (o : Options) (id : Nat) : Nat → Workspace → Bool → Except Fault BlockOutcome
  | 0, w, changed => .ok ⟨w, changed, false⟩
  | limit + 1, w, changed => do
    let (w, more) ← round o id w Pass.all
    if more then settleBlock o id limit w true else return ⟨w, changed, true⟩

/-! ## One cycle -/

/-- Settles some blocks in order. A change in one makes the facts stale for the next. -/
def settleBlocks (o : Options) (limit : Nat) : List Nat → Workspace → Except Fault BlockOutcome
  | [], w => .ok ⟨w, false, true⟩
  | id :: ids, w => do
    let first ← settleBlock o id limit (w.refresh o) false
    if !first.stable then return { first with changed := false }
    let w := if first.changed then first.workspace.invalidate else first.workspace
    let others ← settleBlocks o limit ids w
    return { others with changed := first.changed || others.changed }

/-- A program between two cycles. -/
structure State where
  program : Program
  summary : Summary
  tally : Tally
  /-- The number of rounds after which the optimizer gave up, if it did. -/
  notConverging : Option Nat := none

/-- Counts the size after a cycle. -/
def Summary.record (s : Summary) (before after : Nat) : Summary :=
  if before < after then { s with peak := max s.peak after } else s

/-- One cycle, and whether it changed anything. -/
def cycle (o : Options) (limit : Nat) (s : State) : Except Fault (State × Bool) := do
  let before := s.program.size
  let jumps := Jumps.run o.annotated s.program.nextId s.program.code
  let cycles := s.summary.cycles + 1
  let summary := { s.summary with
    cycles
    afterGlobal := if cycles = 1 then codeSize jumps.code else s.summary.afterGlobal }
  let g := Graph.build jumps.code
  let w := Workspace.create o g jumps.nextId { s.tally with cycles := s.tally.cycles + 1 }
  let outcome ← settleBlocks o limit (List.range g.size) w
  let w := outcome.workspace
  let program : Program := ⟨w.graph.flatten, w.nextId⟩
  return ({ program
            summary := Summary.record summary before program.size
            tally := w.tally
            notConverging := if outcome.stable then none else some limit },
    jumps.changed || outcome.changed)

/-- Cycles until nothing changes, at most as often as the last argument says. -/
def cycles (o : Options) (limit : Nat) : Nat → State → Except Fault State
  | 0, s => .ok { s with notConverging := some s.summary.cycles }
  | left + 1, s => do
    let (s, changed) ← cycle o limit s
    if changed && s.notConverging.isNone then cycles o limit left s else return s

/-! ## The whole program -/

/-- Attaches the facts of every block to its first instruction. -/
def summarize (o : Options) (s : State) : State :=
  let g := Graph.build s.program.code
  let facts := Facts.analyze g o.reserved
  let code := g.blocks.flatMap fun b =>
    match b.code with
    | [] => []
    | p :: rest => p.annotate (BlockFacts.collect facts b).summary :: rest
  { s with
    program := { s.program with code }
    tally := s.tally.countAnalysis facts }

/-- Optimizes a program. -/
def run (o : Options) (program : Program) : Except Fault State := do
  let size := program.size
  let limit := o.cycleLimit size
  let s ← cycles o limit limit
    { program
      summary := { initial := size, peak := size }
      tally := { units := 1 } }
  let s := if s.notConverging.isNone && o.summarize then summarize o s else s
  return { s with summary.final := s.program.size }

end Optimizer

end MipsFlow
