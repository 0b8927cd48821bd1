import MipsFlow.Proofs.Attempts.DeadCode
import MipsFlow.Proofs.Attempts.Jumps
import MipsFlow.Proofs.Faults

/-!
# Where a run can break down

The optimizer, step by step. A pass looks up a block of the graph and what the facts say of it. The
graph stays regular and the facts span it (`Workspace.Spanned`), so no step breaks down but the one
that folds a product that lacks an operand: a run breaks down just where it faults
(`Attempt.run_eq`), and with a program without such products it does not (`Attempt.run_succeeds`).
-/

namespace MipsFlow

open Optimizer (BlockOutcome State)

/-- The workspace has a regular graph with so many blocks, and facts about each of them. -/
structure Workspace.Spanned (n : Nat) (w : Workspace) : Prop where
  regular : w.graph.Regular
  size : w.graph.size = n
  spans : w.facts.Spans w.graph
  current : w.stale = false

namespace Workspace

variable {o : Options} {n id : Nat} {w w' : Workspace} {b : Block} {pass : Pass} {changed : Bool}

/-- What a pass makes of a graph has the same shape. -/
theorem Spanned.apply (spanned : w.Spanned n) (here : w.graph.block? id = some b)
    (applied : pass.apply o w b = (w', .ok changed)) :
    w.graph.SameShape w'.graph ∧ w'.facts = w.facts := by
  have place : b.id = id := spanned.regular.place here
  unfold Pass.apply at applied
  cases pass with
  | propagation =>
    cases applied
    exact ⟨(Attempt.propagation_eq spanned.regular spanned.spans
      (place ▸ Graph.lt_size_of_block? here) o.annotated).2.shape, rfl⟩
  | _ =>
    cases (Prod.mk.inj applied).1
    exact ⟨.setCode _, rfl⟩

/-- Having facts about every block lasts all the way. -/
theorem spanned_lasting (o : Options) (n : Nat) :
    Lasting o (fun _ => True) fun _ w => w.Spanned n where
  current := Spanned.current
  congr := fun spanned graph facts current =>
    ⟨graph ▸ spanned.regular, graph ▸ spanned.size, graph ▸ facts ▸ spanned.spans, current⟩
  mono := fun spanned _ => spanned
  renew := fun spanned =>
    ⟨spanned.regular, spanned.size, Attempt.spans_analyze spanned.regular o.reserved, rfl⟩
  apply := fun {id w w' b pass changed} _ spanned here applied => by
    obtain ⟨shape, facts⟩ := spanned.apply here applied
    have kept : (w'.refresh o).Spanned n := by
      refine ⟨?_, ?_, ?_, refresh_stale o w'⟩
      · exact refresh_graph o w' ▸ shape.regular spanned.regular
      · exact refresh_graph o w' ▸ shape.size_eq.trans spanned.size
      · cases stale : w'.stale with
        | false =>
          rw [refresh_of_current stale, facts]
          exact spanned.spans.of_size shape.size_eq
        | true =>
          rw [refresh_facts stale, refresh_graph]
          exact Attempt.spans_analyze (shape.regular spanned.regular) o.reserved
    exact ⟨kept, fun _ _ _ => kept⟩

end Workspace

namespace Attempt

variable {o : Options} {n id limit : Nat} {w : Workspace}

/-! ## The workspace -/

/-- Analyses a graph. -/
def create (o : Options) (g : Graph) (nextId : Nat) (tally : Tally) : Attempt Workspace := do
  let facts ← analyze g o.reserved
  return { graph := g, facts, nextId, tally := tally.countAnalysis facts }

theorem create_eq {g : Graph} (regular : g.Regular) (o : Options) (nextId : Nat) (tally : Tally) :
    create o g nextId tally = pure (Workspace.create o g nextId tally) := by
  rw [create, analyze_eq regular, pure_bind]
  rfl

/-- Computes stale facts again. -/
def refresh (o : Options) (w : Workspace) : Attempt Workspace := do
  if w.stale then
    let facts ← analyze w.graph o.reserved
    return { w with facts, stale := false, tally := w.tally.countAnalysis facts }
  else return w

theorem refresh_eq (regular : w.graph.Regular) (o : Options) :
    refresh o w = pure (w.refresh o) := by
  unfold refresh Workspace.refresh
  rw [analyze_eq regular, pure_bind]
  exact (apply_ite pure _ _ _).symm

/-! ## One block -/

/-- Applies a pass to a block, and says whether it changed anything. -/
def apply (o : Options) (pass : Pass) (w : Workspace) (b : Block) :
    Attempt (Workspace × Bool) := do
  let block : BlockCode := ⟨b.code, w.nextId⟩
  match pass with
  | .redundancy =>
    let (block, changed) ← redundancy o.annotated w.facts b block
    return (w.store b.id block, changed)
  | .sharing =>
    let (block, changed) ← sharing o.annotated w.facts b block
    return (w.store b.id block, changed)
  | .folding =>
    let (block, changed) ← folding o.annotated w.facts b block
    return (w.store b.id block, changed)
  | .propagation =>
    let s ← propagation o.annotated w.facts w.graph b.id
    return ({ w with graph := s.graph, stale := w.stale || s.elsewhere }, s.changed)
  | .deadCode =>
    let (code, changed) ← deadCode o.annotated w.facts b b.code
    return (w.store b.id ⟨code, w.nextId⟩, changed)

/-- The outcome of a pass, unless it faults. -/
def answer (outcome : Workspace × Except Fault Bool) : Except Fault (Workspace × Bool) :=
  outcome.2.map (outcome.1, ·)

theorem apply_eq {b : Block} (spanned : w.Spanned n) (here : w.graph.block? id = some b)
    (pass : Pass) : apply o pass w b = call (answer (pass.apply o w b)) := by
  have inside : b.id < w.graph.size := by
    rw [spanned.regular.place here]
    exact Graph.lt_size_of_block? here
  have known : b.id < w.facts.live.exit.length := spanned.spans.liveExit.symm ▸ inside
  cases pass with
  | redundancy => simp only [apply, redundancy_eq known, pure_bind]; rfl
  | sharing => simp only [apply, sharing_eq known, pure_bind]; rfl
  | folding =>
    simp only [apply, folding_eq, Pass.apply, answer, Folding.Outcome.behind]
    cases (Folding.run (w.facts.view o.annotated b) ⟨b.code, w.nextId⟩).fault with
    | some fault => exact throw_bind ..
    | none => simp [Except.map]
  | propagation =>
    simp only [apply, (propagation_eq spanned.regular spanned.spans inside _).1, pure_bind]
    rfl
  | deadCode => simp only [apply, deadCode_eq known, pure_bind]; rfl

/-- Applies a pass to the block with the given place, then refreshes the facts. -/
def applyAt (o : Options) (id : Nat) (w : Workspace) (pass : Pass) :
    Attempt (Workspace × Bool) := do
  let b ← index w.graph.blocks id
  let (w, changed) ← apply o pass w b
  let w := if changed then { w with tally.changes := w.tally.changes + 1 } else w
  return (← refresh o w, changed)

theorem applyAt_eq (spanned : w.Spanned n) (inside : id < n) (pass : Pass) :
    applyAt o id w pass = call (Optimizer.applyAt o id w pass) := by
  obtain ⟨b, here⟩ := Graph.block?_of_lt_size (spanned.size.symm ▸ inside)
  unfold Optimizer.applyAt
  rw [applyAt, index_eq here, pure_bind, apply_eq spanned here, here]
  dsimp only
  rcases applied : pass.apply o w b with ⟨w', fault | changed⟩
  · exact throw_bind ..
  · have regular := (spanned.apply here applied).1.regular spanned.regular
    simp only [answer, Except.map, call_ok, pure_bind]
    rw [refresh_eq (by split <;> exact regular), pure_bind]

/-- Applies some passes in order, and says whether any of them changed the block. -/
def round (o : Options) (id : Nat) (w : Workspace) : List Pass → Attempt (Workspace × Bool)
  | [] => return (w, false)
  | pass :: passes => do
    let (w, changed) ← applyAt o id w pass
    let (w, more) ← round o id w passes
    return (w, changed || more)

theorem round_eq (spanned : w.Spanned n) (inside : id < n) (passes : List Pass) :
    round o id w passes = call (Optimizer.round o id w passes) := by
  induction passes generalizing w with
  | nil => rfl
  | cons pass passes ih =>
    rw [round, applyAt_eq spanned inside, Optimizer.round]
    refine call_bind fun result applied => ?_
    obtain ⟨w', changed⟩ := result
    have lasts := Optimizer.applyAt_outlasts (Workspace.spanned_lasting o n) spanned trivial applied
    dsimp only
    rw [ih lasts.holds]
    exact call_bind fun _ _ => rfl

/-- Applies all passes to a block until none changes it, at most `limit` times. -/
def settleBlock (o : Options) (id : Nat) : Nat → Workspace → Bool → Attempt BlockOutcome
  | 0, w, changed => return ⟨w, changed, false⟩
  | limit + 1, w, changed => do
    let (w, more) ← round o id w Pass.all
    if more then settleBlock o id limit w true else return ⟨w, changed, true⟩

theorem settleBlock_eq (spanned : w.Spanned n) (inside : id < n) (limit : Nat) (changed : Bool) :
    settleBlock o id limit w changed = call (Optimizer.settleBlock o id limit w changed) := by
  induction limit generalizing w changed with
  | zero => rfl
  | succ limit ih =>
    rw [settleBlock, round_eq spanned inside, Optimizer.settleBlock]
    refine call_bind fun result rounds => ?_
    obtain ⟨w', more⟩ := result
    have lasts := Optimizer.round_outlasts (Workspace.spanned_lasting o n) spanned
      (fun _ _ => trivial) rounds
    cases more with
    | false => rfl
    | true => exact ih lasts.holds true

/-! ## One cycle -/

/-- Settles some blocks in order. A change in one makes the facts stale for the next. -/
def settleBlocks (o : Options) (limit : Nat) : List Nat → Workspace → Attempt BlockOutcome
  | [], w => return ⟨w, false, true⟩
  | id :: ids, w => do
    let first ← settleBlock o id limit (← refresh o w) false
    if !first.stable then return { first with changed := false }
    else
      let w := if first.changed then first.workspace.invalidate else first.workspace
      let others ← settleBlocks o limit ids w
      return { others with changed := first.changed || others.changed }

theorem settleBlocks_eq {ids : List Nat} (regular : w.graph.Regular)
    (spanned : (w.refresh o).Spanned n) (inside : ∀ id ∈ ids, id < n) :
    settleBlocks o limit ids w = call (Optimizer.settleBlocks o limit ids w) := by
  induction ids generalizing w with
  | nil => rfl
  | cons id ids ih =>
    obtain ⟨here, later⟩ := List.forall_mem_cons.1 inside
    rw [settleBlocks, refresh_eq regular, pure_bind, settleBlock_eq spanned here,
      Optimizer.settleBlocks]
    refine call_bind fun first settles => ?_
    have spannedNext := Optimizer.holds_next (Workspace.spanned_lasting o n) spanned
      (fun _ _ => trivial) settles
    have regularNext := spannedNext.regular
    rw [Workspace.refresh_graph] at regularNext
    cases first.stable with
    | false => rfl
    | true =>
      simp only [Bool.not_true, Bool.false_eq_true, if_false]
      rw [ih regularNext spannedNext later]
      exact call_bind fun _ _ => rfl

/-- The code of a program, in one piece or cut into blocks. -/
inductive Layout where
  | flat (code : List Instr)
  | cut (graph : Graph)

namespace Layout

/-- The code in one piece. -/
def code (layout : Layout) : Attempt (List Instr) :=
  match layout with
  | .flat code => return code
  | .cut _ => throw (.fault .partitioned)

/-- Exchanges the code in one piece. -/
def update (layout : Layout) (code : List Instr) : Attempt Layout :=
  match layout with
  | .flat _ => return .flat code
  | .cut _ => throw (.fault .partitioned)

/-- The blocks. -/
def graph (layout : Layout) : Attempt Graph :=
  match layout with
  | .flat _ => throw (.fault .notPartitioned)
  | .cut g => return g

/-- Cuts the code into blocks. -/
def partition (layout : Layout) : Attempt Layout :=
  match layout with
  | .flat code => return .cut (← build code)
  | .cut _ => throw (.fault .alreadyPartitioned)

/-- Joins the blocks. -/
def flatten (layout : Layout) : Attempt Layout :=
  match layout with
  | .flat _ => throw (.fault .notPartitioned)
  | .cut g => return .flat g.flatten

end Layout

/-- A program between two cycles, with the layout of its code. -/
structure Stage where
  layout : Layout
  nextId : Nat
  summary : Summary
  tally : Tally
  notConverging : Option Nat := none

/-- Between two cycles the code is in one piece. -/
def Stage.ofState (s : State) : Stage :=
  { layout := .flat s.program.code
    nextId := s.program.nextId
    summary := s.summary
    tally := s.tally
    notConverging := s.notConverging }

/-- One cycle, and whether it changed anything. -/
def cycle (o : Options) (limit : Nat) (s : Stage) : Attempt (Stage × Bool) := do
  let before := codeSize (← s.layout.code)
  let jumps ← jumps o.annotated s.nextId (← s.layout.code)
  let layout ← s.layout.update jumps.code
  let cycles := s.summary.cycles + 1
  let simplified := codeSize (← layout.code)
  let summary := { s.summary with
    cycles
    afterGlobal := if cycles = 1 then simplified else s.summary.afterGlobal }
  let layout ← layout.partition
  let g ← layout.graph
  let _ ← shape g
  let w ← create o g jumps.nextId { s.tally with cycles := s.tally.cycles + 1 }
  let outcome ← settleBlocks o limit (List.range g.size) w
  let w := outcome.workspace
  let layout ← (Layout.cut w.graph).flatten
  let after := codeSize (← layout.code)
  return ({ layout
            nextId := w.nextId
            summary := Optimizer.Summary.record summary before after
            tally := w.tally
            notConverging := if outcome.stable then none else some limit },
    jumps.changed || outcome.changed)

theorem cycle_eq (o : Options) (limit : Nat) (s : State) : cycle o limit (.ofState s) =
    call ((Optimizer.cycle o limit s).map fun result => (.ofState result.1, result.2)) := by
  let jumps := Jumps.run o.annotated s.program.nextId s.program.code
  let g := Graph.build jumps.code
  have regular : g.Regular := Graph.build_regular jumps.code
  have drawn : shape g = pure g.shape := shape_eq fun id b here => regular.place here
  have created : create o g jumps.nextId { s.tally with cycles := s.tally.cycles + 1 } =
      pure (s.workspace o) := create_eq regular ..
  have current : (s.workspace o).refresh o = s.workspace o := Workspace.refresh_of_current rfl
  have spanned : ((s.workspace o).refresh o).Spanned g.size :=
    current.symm ▸ ⟨regular, rfl, spans_analyze regular o.reserved, rfl⟩
  have settles : settleBlocks o limit (List.range g.size) (s.workspace o) =
      call (Optimizer.settleBlocks o limit (List.range g.size) (s.workspace o)) :=
    settleBlocks_eq regular spanned fun id => List.mem_range.1
  have size : (s.workspace o).graph.size = g.size := rfl
  rw [Optimizer.cycle_eq, size]
  unfold cycle
  simp only [Stage.ofState, Layout.code, Layout.update, Layout.partition, Layout.graph, pure_bind,
    jumps_eq, build_eq]
  rw [drawn, pure_bind, created, pure_bind, settles]
  cases Optimizer.settleBlocks o limit (List.range g.size) (s.workspace o) with
  | error fault => exact throw_bind ..
  | ok outcome =>
    simp only [call_ok, pure_bind, Layout.flatten]
    rfl

/-- Cycles until nothing changes, at most as often as the last argument says. -/
def cycles (o : Options) (limit : Nat) : Nat → Stage → Attempt Stage
  | 0, s => return { s with notConverging := some s.summary.cycles }
  | left + 1, s => do
    let (s, changed) ← cycle o limit s
    if changed && s.notConverging.isNone then cycles o limit left s else return s

theorem cycles_eq (o : Options) (limit left : Nat) (s : State) :
    cycles o limit left (.ofState s) = call ((Optimizer.cycles o limit left s).map .ofState) := by
  induction left generalizing s with
  | zero => rfl
  | succ left ih =>
    rw [cycles, cycle_eq, Optimizer.cycles]
    cases Optimizer.cycle o limit s with
    | error fault => exact throw_bind ..
    | ok result =>
      obtain ⟨s', changed⟩ := result
      rw [Except.map, call_ok, pure_bind]
      show (if changed && s'.notConverging.isNone then cycles o limit left (.ofState s')
          else pure (.ofState s')) =
        call ((if changed && s'.notConverging.isNone then Optimizer.cycles o limit left s'
          else .ok s').map .ofState)
      split
      · exact ih s'
      · rfl

/-! ## The whole program -/

/-- Attaches the facts of a block to its first instruction. -/
def headFacts (f : Facts) (b : Block) : Attempt Block := do
  if b.code.isEmpty then return b
  else
    let facts ← collect f b
    let p ← index b.code 0
    let code ← store b.code 0 (p.annotate facts.summary)
    return { b with code }

/-- Attaches the facts of every block to its first instruction. -/
def summarize (o : Options) (s : Stage) : Attempt Stage := do
  let layout ← s.layout.partition
  let g ← layout.graph
  let facts ← analyze g o.reserved
  let blocks ← g.blocks.mapM (headFacts facts)
  let layout ← (Layout.cut ⟨blocks⟩).flatten
  return { s with layout, tally := s.tally.countAnalysis facts }

theorem headFacts_eq {f : Facts} {g : Graph} {b : Block} (spans : f.Spans g)
    (inside : b.id < g.size) : headFacts f b = pure { b with
      code := match b.code with
        | [] => []
        | p :: rest => p.annotate (BlockFacts.collect f b).summary :: rest } := by
  unfold headFacts
  rw [collect_eq spans inside, pure_bind]
  obtain ⟨id, code, succ, pred, entry, unresolved⟩ := b
  cases code with
  | nil => rfl
  | cons p rest =>
    simp only [List.isEmpty_cons, Bool.false_eq_true, if_false, index_first, pure_bind,
      store_eq (show 0 < (p :: rest).length by simp)]
    rfl

theorem summarize_eq (o : Options) (s : State) :
    summarize o (.ofState s) = pure (.ofState (Optimizer.summarize o s)) := by
  let g := Graph.build s.program.code
  have regular : g.Regular := Graph.build_regular s.program.code
  have inside : ∀ b ∈ g.blocks, b.id < g.size := by
    intro b member
    obtain ⟨id, here⟩ := List.mem_iff_getElem?.1 member
    rw [regular.place here]
    exact Graph.lt_size_of_block? here
  have heads := mapM_eq (f := headFacts (Facts.analyze g o.reserved)) fun b member =>
    headFacts_eq (spans_analyze regular o.reserved) (inside b member)
  unfold summarize
  simp only [Stage.ofState, Layout.partition, build_eq, pure_bind, Layout.graph]
  rw [analyze_eq regular, pure_bind, heads, pure_bind]
  simp only [Layout.flatten, pure_bind, Graph.flatten, List.flatMap_map]
  rfl

/-- Optimizes a program. -/
def run (o : Options) (program : Program) : Attempt State := do
  let limit := o.cycleLimit program.size
  let s ← cycles o limit limit (.ofState (.start program))
  let s ← if s.notConverging.isNone && o.summarize then summarize o s else pure s
  let program : Program := ⟨← s.layout.code, s.nextId⟩
  return {
    program
    summary := { s.summary with final := program.size }
    tally := s.tally
    notConverging := s.notConverging }

/-- A run breaks down just where it faults, and otherwise comes to the same result. -/
theorem run_eq (o : Options) (program : Program) :
    run o program = call (Optimizer.run o program) := by
  rw [run, cycles_eq, Optimizer.run_eq]
  cases Optimizer.cycles o (o.cycleLimit program.size) (o.cycleLimit program.size)
      (.start program) with
  | error fault => exact throw_bind ..
  | ok s =>
    have whole (s : State) : (Stage.ofState s).layout.code = pure s.program.code := rfl
    have same : (Stage.ofState s).notConverging = s.notConverging := rfl
    simp only [Except.map, call_ok, pure_bind, summarize_eq, State.finish, same]
    split
    · rw [whole, pure_bind]
      rfl
    · rw [whole, pure_bind]
      rfl

/-- Only a product that lacks an operand breaks a run down. Without one, every step of a run can be
done, whatever the options, and the run comes to its result. -/
theorem run_succeeds {program : Program} (o : Options)
    (whole : ∀ p ∈ program.code, p.isShortProduct = false) :
    ∃ final, run o program = pure final ∧ Optimizer.run o program = .ok final := by
  obtain ⟨final, ran⟩ := Optimizer.run_ok whole o
  exact ⟨final, by rw [run_eq, ran, call_ok], ran⟩

/-- Around a loop there is a whole product, a quotient by zero and a command with an operand too
many. -/
theorem run_succeeds_loop :
    let program : Program := ⟨[⟨1, .label "L", "", []⟩,
      .ofCommand 2 (.ofOpcode .mult [.reg (.general 8), .imm 3]),
      .ofCommand 3 (.ofOpcode .div [.reg (.general 9), .imm 7, .reg Reg.zero]),
      .ofCommand 4 (.ofOpcode .addu [.reg (.general 8), .imm 1, .imm 2, .imm 3]),
      .ofCommand 5 (.ofOpcode .bne [.reg (.general 8), .reg Reg.zero, .sym "L"]),
      .ofCommand 6 (.ofOpcode .jr [.reg Reg.link])], 7⟩
    ∃ final, run {} program = pure final ∧ Optimizer.run {} program = .ok final :=
  run_succeeds {} (by decide)

end Attempt

end MipsFlow
