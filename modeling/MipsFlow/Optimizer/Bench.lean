import MipsFlow.Graph.Build
import MipsFlow.Graph.Shape
import MipsFlow.Instr.Printer
import MipsFlow.Optimizer.Jumps
import MipsFlow.Optimizer.Workspace
import MipsFlow.Program

/-!
# Working on a program step by step

A program on the bench is either flat or cut into blocks, and each step is meant for one of the two
forms. Cutting it into blocks analyses it; the facts are then those of that moment until they are
declared stale and refreshed.
-/

namespace MipsFlow

/-- The form that a program is in. -/
inductive Layout where
  | flat (code : List Instr)
  | partitioned (graph : Graph)

/-- The facts of the last partition. -/
structure Context where
  facts : Facts
  stale : Bool

/-- A program that is worked on. -/
structure Bench where
  options : Options
  layout : Layout
  context : Option Context := none
  nextId : Nat

namespace Bench

/-- One step. -/
inductive Action where
  | partition
  | flatten
  /-- Asks for the size of the flat program. -/
  | measure
  /-- Asks for the blocks and the shape of the graph. -/
  | inspect
  /-- Empties the flat program. -/
  | clear
  | jumps
  /-- Applies a pass to one block, or to every block in order. -/
  | pass (pass : Pass) (block : Option Int)
  | invalidate
  | refresh
  /-- Asks whether a register is reserved. -/
  | isReserved (name : String)
deriving DecidableEq, Repr

/-- What a step has to say besides the new state. -/
inductive Reply where
  | none
  | size (count : Nat)
  | graph (g : Graph)
  | changed (b : Bool)
  | changedEach (bs : List Bool)
  | refreshed (b : Bool)
  | reserved (b : Bool)

/-- Puts a program on the bench. -/
def ofProgram (options : Options) (program : Program) : Bench :=
  { options, layout := .flat program.code, nextId := program.nextId }

/-- The instructions of the flat form. -/
def flat (s : Bench) : Except Fault (List Instr) :=
  match s.layout with
  | .flat code => .ok code
  | .partitioned _ => .error .partitioned

/-- The graph of the partitioned form. -/
def graph (s : Bench) : Except Fault Graph :=
  match s.layout with
  | .flat _ => .error .notPartitioned
  | .partitioned g => .ok g

/-- The facts of the last partition. -/
def facts (s : Bench) : Except Fault Context :=
  match s.context with
  | some context => .ok context
  | none => .error .missing

/-- Cuts the program into blocks and analyses it. -/
def partition (s : Bench) : Except Fault Bench :=
  match s.layout with
  | .partitioned _ => .error .alreadyPartitioned
  | .flat code =>
    let g := Graph.build code
    .ok { s with
      layout := .partitioned g
      context := some ⟨Facts.analyze g s.options.reserved, false⟩ }

/-- The workspace of a partitioned program. -/
def workspace (s : Bench) : Except Fault Workspace := do
  let g ← s.graph
  let context ← s.facts
  return { graph := g, facts := context.facts, stale := context.stale, nextId := s.nextId }

/-- Takes over what a pass left. -/
def take (s : Bench) (w : Workspace) : Bench :=
  { s with
    layout := .partitioned w.graph
    context := some ⟨w.facts, w.stale⟩
    nextId := w.nextId }

/-- The block at a place. -/
def blockAt (g : Graph) (place : Int) : Except Fault Block :=
  match if place < 0 then none else g.block? place.toNat with
  | some b => .ok b
  | none => .error (.outOfBounds place g.size)

/-- Applies a pass to some blocks in order, up to a fault. -/
def passAll (s : Bench) (pass : Pass) : List Nat → Workspace → Bench × Except Fault (List Bool)
  | [], w => (s.take w, .ok [])
  | id :: ids, w =>
    match w.graph.block? id with
    | none => passAll s pass ids w
    | some b =>
      match pass.apply s.options w b with
      | (w, .error fault) => (s.take w, .error fault)
      | (w, .ok changed) =>
        let (s, rest) := passAll s pass ids w
        (s, rest.map (changed :: ·))

/-- Applies a pass to the block at a place. -/
def passAt (s : Bench) (pass : Pass) (place : Int) : Bench × Except Fault Bool :=
  match (do
      let w ← s.workspace
      return (w, ← blockAt w.graph place)) with
  | .error fault => (s, .error fault)
  | .ok (w, b) =>
    let (w, changed) := pass.apply s.options w b
    (s.take w, changed)

/-- Simplifies the jumps of the flat program. -/
def simplifyJumps (s : Bench) : Except Fault (Bench × Bool) := do
  let outcome := Jumps.run s.options.annotated s.nextId (← s.flat)
  return ({ s with layout := .flat outcome.code, nextId := outcome.nextId }, outcome.changed)

/-- The state after stale facts were computed again. -/
def refreshed (s : Bench) (c : Context) : Bench :=
  match c.stale, s.layout with
  | true, .partitioned g =>
    { s with context := some ⟨Facts.analyze g s.options.reserved, false⟩ }
  | _, _ => { s with context := some { c with stale := false } }

/-- Goes to the state that a step answered, or stays. -/
def settle (s : Bench) (answer : Except Fault (Bench × Reply)) : Bench × Except Fault Reply :=
  match answer with
  | .ok (after, reply) => (after, .ok reply)
  | .error fault => (s, .error fault)

/-- Runs one step. -/
def run (s : Bench) : Action → Bench × Except Fault Reply
  | .partition => s.settle (s.partition.map (·, .none))
  | .flatten => s.settle (s.graph.map fun g => ({ s with layout := .flat g.flatten }, .none))
  | .measure => s.settle (s.flat.map fun code => (s, .size (codeSize code)))
  | .inspect => s.settle (s.graph.map fun g => (s, .graph g))
  | .clear => s.settle (s.flat.map fun _ => ({ s with layout := .flat [] }, .none))
  | .jumps => s.settle (s.simplifyJumps.map fun (s, changed) => (s, .changed changed))
  | .pass pass (some place) =>
    let (s, changed) := s.passAt pass place
    (s, changed.map .changed)
  | .pass pass none =>
    match s.workspace with
    | .error fault => (s, .error fault)
    | .ok w =>
      let (s, changed) := s.passAll pass (List.range w.graph.size) w
      (s, changed.map .changedEach)
  | .invalidate =>
    s.settle (s.facts.map fun c => ({ s with context := some { c with stale := true } }, .none))
  | .refresh => s.settle (s.facts.map fun c => (s.refreshed c, .refreshed c.stale))
  | .isReserved name => s.settle do
    let r ← Reg.require name
    let context ← s.facts
    return (s, .reserved (context.facts.reserved.contains r))

end Bench

end MipsFlow
