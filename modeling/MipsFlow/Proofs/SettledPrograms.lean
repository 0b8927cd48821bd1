import MipsFlow.Proofs.Unchanged
import MipsFlow.Proofs.Verbosity

/-!
# Programs that the optimizer leaves alone

A program is settled if its jumps are simple and all its blocks are quiet under the facts of its
graph. Settled programs are exactly where the optimizer comes to rest: a run that converges leaves
one (`settled_of_run`), and a run from one ends after a single cycle with the program unchanged
(`run_of_settled`). Whether a program is settled shows in its instructions, not in their identities
and notes (`settled_relabel`), nor in the limit of the run that it has come from.

The facts that are attached to a settled program at the highest annotation level are attached to it
again, but notes that are there are not added twice (`summarize_summarize`).
-/

namespace MipsFlow

open Function (Injective)

/-- The summary after a cycle that changed nothing in a program of the given size. -/
def Summary.rest (s : Summary) (size : Nat) : Summary :=
  { s with
    cycles := s.cycles + 1
    afterGlobal := if s.cycles + 1 = 1 then size else s.afterGlobal }

namespace Optimizer

open Workspace

variable {o : Options} {limit : Nat} {s s' : State} {program : Program} {f : Nat → Nat}

/-- The optimizer finds nothing to do. -/
structure Settled (o : Options) (program : Program) : Prop where
  jumps : (Jumps.run o.annotated program.nextId program.code).changed = false
  blocks : ∀ id, Quiet o (Workspace.create o (Graph.build program.code) program.nextId {}) id

theorem build_placed (code : List Instr) : Graph.Placed (Graph.build code).blocks :=
  fun _ _ here => (Graph.build_regular code).place here

/-! ## Cycles -/

/-- A cycle leaves a settled program alone. -/
theorem cycle_of_settled (settled : Settled o s.program) (limit : Nat) :
    ∃ tally, cycle o (limit + 1) s =
      .ok (⟨s.program, s.summary.rest s.program.size, tally, none⟩, false) := by
  have jumps : Jumps.run o.annotated s.program.nextId s.program.code =
      ⟨s.program.code, s.program.nextId, false⟩ := Jumps.eq_of_unchanged settled.jumps
  let g := Graph.build s.program.code
  let w := Workspace.create o g s.program.nextId { s.tally with cycles := s.tally.cycles + 1 }
  have quiet : ∀ id ∈ List.range g.size, Quiet o w id := fun id _ =>
    (settled.blocks id).congr_tally _
  have settles : settleBlocks o (limit + 1) (List.range g.size) w = .ok ⟨w, false, true⟩ :=
    settleBlocks_of_quiet (build_placed s.program.code) rfl limit quiet
  have flat : w.graph.flatten = s.program.code := Graph.flatten_build s.program.code
  have same : (⟨w.graph.flatten, w.nextId⟩ : Program) = s.program := by
    rw [flat]
    rfl
  simp only [g, w] at settles same
  refine ⟨w.tally, ?_⟩
  unfold cycle
  simp only [jumps, settles, bind, Except.bind, pure, Except.pure, same]
  simp [Summary.record, Summary.rest, Program.size, w, g]

/-- A cycle that settles everything without a change starts from a settled program, and leaves it as
it was. -/
theorem settled_of_cycle (cycled : cycle o limit s = .ok (s', false))
    (converged : s'.notConverging = none) : Settled o s.program ∧ s'.program = s.program := by
  obtain ⟨outcome, settles, ends⟩ := cycle_eq_ok cycled
  obtain ⟨rfl, unchanged⟩ := Prod.mk.inj ends
  obtain ⟨simple, idle⟩ := Bool.or_eq_false_iff.1 unchanged
  have jumps : Jumps.run o.annotated s.program.nextId s.program.code =
      ⟨s.program.code, s.program.nextId, false⟩ := Jumps.eq_of_unchanged simple
  have stable : outcome.stable = true := by
    cases isStable : outcome.stable with
    | true => rfl
    | false => simp [isStable] at converged
  rw [State.workspace, jumps] at settles
  obtain ⟨same, quiet⟩ := settleBlocks_unchanged (build_placed s.program.code) rfl settles
    stable idle
  have flat : (Graph.build s.program.code).flatten = s.program.code :=
    Graph.flatten_build s.program.code
  refine ⟨⟨simple, fun id => ?_⟩, ?_⟩
  · intro b here
    have inside : id ∈ List.range (Graph.build s.program.code).size :=
      List.mem_range.2 (List.getElem?_eq_some_iff.1 here).1
    exact (quiet id inside).congr_tally _ b here
  · simp only [same]
    exact congrArg (Program.mk · s.program.nextId) flat

theorem cycles_of_settled (settled : Settled o s.program) (limit left : Nat) :
    ∃ tally, cycles o (limit + 1) (left + 1) s =
      .ok ⟨s.program, s.summary.rest s.program.size, tally, none⟩ := by
  obtain ⟨tally, cycled⟩ := cycle_of_settled settled limit
  refine ⟨tally, ?_⟩
  rw [cycles, cycled]
  rfl

/-- Cycles that converge leave a settled program. -/
theorem settled_of_cycles {left : Nat} (cycled : cycles o limit left s = .ok s')
    (converged : s'.notConverging = none) : Settled o s'.program := by
  induction left generalizing s with
  | zero =>
    cases cycled
    cases converged
  | succ left ih =>
    obtain ⟨s₁, changed, first, ⟨-, cycled⟩ | ⟨stops, rfl⟩⟩ := cycles_succ_eq_ok cycled
    · exact ih cycled
    · cases changed with
      | true => simp [converged] at stops
      | false =>
        obtain ⟨settled, same⟩ := settled_of_cycle first converged
        rwa [same]

/-! ## Other identities, and notes -/

/-- Whether the optimizer has something to do does not depend on identities and notes. -/
theorem settled_relabel (injective : Injective f) (fresh : FreshFrom f program.nextId)
    (o : Options) : Settled o.silent (program.relabel f) ↔ Settled o program := by
  have jumps := congrArg Jumps.Outcome.changed
    (Jumps.run_relabel o.annotated fresh program.code)
  let w := Workspace.create o (Graph.build program.code) program.nextId {}
  have created : Workspace.create o.silent (Graph.build (program.relabel f).code)
      (program.relabel f).nextId {} = w.relabel f := by
    have built : Graph.build (program.relabel f).code = (Graph.build program.code).relabel f :=
      Graph.build_relabel f program.code
    rw [built]
    exact Workspace.create_relabel injective o (Graph.build program.code) program.nextId {}
  have quiet : ∀ id, Quiet o.silent (w.relabel f) id ↔ Quiet o w id := by
    intro id
    have found : (w.relabel f).graph.block? id = (w.graph.block? id).map (Block.relabel f) :=
      w.graph.block?_relabel f id
    have same (b : Block) (pass : Pass) := congrArg Prod.snd
      (Workspace.apply_relabel (w := w) injective fresh o pass b)
    constructor
    · intro quiet b here pass
      exact (same b pass).symm.trans (quiet (b.relabel f) (by rw [found, here]; rfl) pass)
    · intro quiet c there pass
      rw [found] at there
      obtain ⟨b, here, rfl⟩ := Option.map_eq_some_iff.1 there
      exact (same b pass).trans (quiet b here pass)
  constructor
  · rintro ⟨simple, blocks⟩
    refine ⟨jumps.symm.trans simple, fun id => (quiet id).1 ?_⟩
    rw [← created]
    exact blocks id
  · rintro ⟨simple, blocks⟩
    refine ⟨jumps.trans simple, fun id => ?_⟩
    rw [created]
    exact (quiet id).2 (blocks id)

/-- Notes make no difference. -/
theorem settled_of_bare {program' : Program}
    (code : program'.code.map Instr.bare = program.code.map Instr.bare)
    (nextId : program'.nextId = program.nextId) (settled : Settled o program) :
    Settled o program' := by
  have fresh (next : Nat) : FreshFrom id next := fun _ _ => rfl
  have same : program'.relabel id = program.relabel id := by
    unfold Program.relabel
    rw [relabel_id_eq_bare, code, nextId]
  rw [← settled_relabel Function.injective_id (fresh _), same]
  exact (settled_relabel Function.injective_id (fresh _) o).2 settled

/-! ## Attached facts -/

/-- The code of a block with the facts attached to its first instruction. -/
def attach (facts : Facts) (b : Block) : List Instr :=
  match b.code with
  | [] => []
  | p :: rest => p.annotate (BlockFacts.collect facts b).summary :: rest

theorem length_attach (facts : Facts) (b : Block) : (attach facts b).length = b.code.length := by
  unfold attach
  cases b.code <;> rfl

/-- Facts that are attached to a block are attached once. -/
theorem attach_of_code {facts : Facts} {b b' : Block} (alike : b'.relabel id = b.relabel id)
    (attached : b'.code = attach facts b) : attach facts b' = b'.code := by
  have same : BlockFacts.collect facts b' = BlockFacts.collect facts b := by
    have place := congrArg Block.id alike
    have succ := congrArg Block.succ alike
    have pred := congrArg Block.pred alike
    simp only [Block.id_relabel, Block.succ_relabel, Block.pred_relabel] at place succ pred
    simp only [BlockFacts.collect, place, succ, pred]
  unfold attach at attached ⊢
  rw [attached, same]
  cases b.code with
  | nil => rfl
  | cons p rest => exact congrArg (· :: rest) (p.annotate_annotate _)

theorem map_relabel_build {code code' : List Instr}
    (same : code'.map Instr.bare = code.map Instr.bare) :
    (Graph.build code').relabel id = (Graph.build code).relabel id := by
  rw [← Graph.build_relabel, ← Graph.build_relabel, relabel_id_eq_bare, same]

/-- Facts do not depend on notes. -/
theorem analyze_build_of_bare {code code' : List Instr}
    (same : code'.map Instr.bare = code.map Instr.bare) (reserved : List Reg) :
    Facts.analyze (Graph.build code') reserved = Facts.analyze (Graph.build code) reserved := by
  have plain : ∀ facts : Facts, facts.relabel id = facts := by
    intro facts
    have sets : FactSet.map (id : Nat → Nat) = id := funext FactSet.map_id
    simp [Facts.relabel, Solution.map, sets]
  have analyzed := Facts.analyze_relabel Function.injective_id (Graph.build code') reserved
  rwa [map_relabel_build same, Facts.analyze_relabel Function.injective_id, plain, plain,
    eq_comm] at analyzed

/-- Attaching the facts to a program that they are attached to changes nothing. -/
theorem summarize_summarize (o : Options) (s : State) :
    (summarize o (summarize o s)).program = (summarize o s).program := by
  let g := Graph.build s.program.code
  let facts := Facts.analyze g o.reserved
  let code' := (summarize o s).program.code
  let g' := Graph.build code'
  have isCode : code' = g.blocks.flatMap (attach facts) := rfl
  have bare : code'.map Instr.bare = s.program.code.map Instr.bare := bare_summarize o s
  have alike : g'.relabel id = g.relabel id := map_relabel_build bare
  have blocks : g'.blocks.map (Block.relabel id) = g.blocks.map (Block.relabel id) :=
    congrArg Graph.blocks alike
  have codes : g'.blocks.map Block.code = g.blocks.map (attach facts) := by
    refine List.eq_iff_flatten_eq.2 ⟨?_, ?_⟩
    · rw [← List.flatMap_def, ← List.flatMap_def, ← isCode]
      exact Graph.flatten_build code'
    · have lengths := congrArg (List.map fun b : Block => b.code.length) blocks
      simpa [List.map_map, Function.comp_def, length_attach] using lengths
  have attached : ∀ b' ∈ g'.blocks, attach facts b' = b'.code := by
    intro b' member
    obtain ⟨i, inside, rfl⟩ := List.getElem_of_mem member
    have inside' : i < g.blocks.length := by
      have length := congrArg List.length blocks
      rw [List.length_map, List.length_map] at length
      exact length ▸ inside
    have here := List.getElem_of_eq blocks (by simpa using inside)
    have isAttached := List.getElem_of_eq codes (by simpa using inside)
    rw [List.getElem_map, List.getElem_map] at here isAttached
    exact attach_of_code here isAttached
  have again : (summarize o (summarize o s)).program.code = g'.blocks.flatMap (attach facts) := by
    have same : Facts.analyze g' o.reserved = facts := analyze_build_of_bare bare o.reserved
    rw [← same]
    rfl
  have code : (summarize o (summarize o s)).program.code = code' := by
    rw [again, List.flatMap_congr attached]
    exact Graph.flatten_build code'
  exact congrArg (Program.mk · s.program.nextId) code

/-! ## Runs -/

/-- What a run makes of a program that is settled: it attaches the facts if it is to, and that is
all. -/
theorem run_of_settled (settled : Settled o program) :
    ∃ again, run o program = .ok again ∧
      again.program = (if o.summarize then (summarize o (.start program)).program else program) ∧
      again.summary = ⟨program.size, program.size, program.size, 1, program.size⟩ ∧
      again.notConverging = none := by
  have positive : 0 < o.cycleLimit program.size := by
    unfold Options.cycleLimit
    split <;> omega
  obtain ⟨limit, isLimit⟩ := Nat.exists_eq_succ_of_ne_zero positive.ne'
  have start : Settled o (State.start program).program := settled
  obtain ⟨tally, cycled⟩ := cycles_of_settled start limit limit
  rw [run_eq, isLimit, cycled]
  refine ⟨_, rfl, ?_⟩
  unfold State.finish
  cases summarized : o.summarize with
  | false => exact ⟨rfl, rfl, rfl⟩
  | true =>
    refine ⟨rfl, ?_, rfl⟩
    have size := size_summarize o (.start program)
    exact congrArg (Summary.mk program.size program.size · 1 program.size) size

/-- The program that a converging run leaves is settled, and has all the facts attached to it that
the run attaches. -/
theorem settled_of_run {final : State} (ran : run o program = .ok final)
    (converged : final.notConverging = none) : Settled o final.program ∧
      (o.summarize = true → (summarize o (.start final.program)).program = final.program) := by
  obtain ⟨s, cycled, rfl⟩ := run_eq_ok ran
  have rests : s.notConverging = none := by rwa [State.notConverging_finish] at converged
  have settled := settled_of_cycles cycled rests
  unfold State.finish
  rw [rests]
  cases summarized : o.summarize with
  | false => exact ⟨settled, fun noted => by cases noted⟩
  | true =>
    exact ⟨settled_of_bare (bare_summarize o s) rfl settled, fun _ => summarize_summarize o s⟩

/-- Running the optimizer again on a program that it has converged on changes nothing. -/
theorem run_of_run {final : State} (ran : run o program = .ok final)
    (converged : final.notConverging = none) :
    ∃ again, run o final.program = .ok again ∧ again.program = final.program ∧
      again.summary = ⟨final.program.size, final.program.size, final.program.size, 1,
        final.program.size⟩ ∧
      again.notConverging = none := by
  obtain ⟨settled, attached⟩ := settled_of_run ran converged
  obtain ⟨again, isAgain, same, summary, rests⟩ := run_of_settled settled
  refine ⟨again, isAgain, ?_, summary, rests⟩
  rw [same]
  split
  · next summarized => exact attached summarized
  · rfl

end Optimizer

end MipsFlow
