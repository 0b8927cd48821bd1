import MipsFlow.Proofs.RelabelledFacts
import MipsFlow.Proofs.RunDescent

/-!
# The optimizer does not look at identities and notes

The optimizer does the same to a program whose instructions have other identities and have lost
their notes, whether it leaves notes or not (`Optimizer.run_relabel`). The step is a pass over one
block (`Workspace.apply_relabel`); rounds, cycles and the whole run follow. The new identities are
given out one after the other, so the relabelling has to keep the free ones in order all the way,
which it does because none is freed again.
-/

namespace MipsFlow

open Function (Injective)

variable {f : Nat → Nat}

/-! ## Copy propagation -/

namespace Propagation

/-- The spread under other identities. -/
def Spread.relabel (f : Nat → Nat) (s : Spread) : Spread :=
  { s with code := s.code.map (Instr.relabel f) }

/-- The graph in which copies are propagated, under other identities. -/
def State.relabel (f : Nat → Nat) (s : State) : State := { s with graph := s.graph.relabel f }

/-- The departure under other identities. -/
def Departure.relabel (f : Nat → Nat) (d : Departure) : Departure :=
  { d with state := d.state.relabel f, instr := d.instr.relabel f }

variable (annotated : Bool) {facts : Facts} (c : Copy)

theorem relabel_reread (note note' : String) (p : Instr) :
    (reread annotated c note p).relabel f = reread false c note' (p.relabel f) := by
  simp only [reread, Bool.and_false, Bool.false_eq_true, if_false, Instr.renameReads_relabel]
  split
  · exact Instr.relabel_note ..
  · rfl

theorem spread_relabel (note note' : String) (code : List Instr) :
    spread false c note' (code.map (Instr.relabel f)) =
      (spread annotated c note code).relabel f := by
  induction code with
  | nil => rfl
  | cons p rest ih =>
    cases command : p.command? with
    | none =>
      have command' : (p.relabel f).command? = none := command
      rw [List.map_cons, spread_cons_of_none command, spread_cons_of_none command', ih]
      rfl
    | some d =>
      have command' : (p.relabel f).command? = some d := command
      have same := relabel_reread (f := f) annotated c note note' p
      rw [List.map_cons, spread_cons d command, spread_cons d command', ih, ← same]
      simp only [Instr.mayWrite_relabel, Instr.reads_relabel, Instr.readSites_relabel,
        apply_ite (Spread.relabel f)]
      rfl

/-- Carrying a copy into a block changes the relabelled block as it does the block. -/
theorem carry_relabel (note note' : String) (s : State) (id : Nat) (code : List Instr) :
    (if (spread false c note' (code.map (Instr.relabel f))).count = 0 then s.relabel f
      else ⟨(s.relabel f).graph.setCode id (spread false c note' (code.map (Instr.relabel f))).code,
        true, true⟩) =
      (if (spread annotated c note code).count = 0 then s
        else ⟨s.graph.setCode id (spread annotated c note code).code, true, true⟩ : State).relabel
          f := by
  have stored := s.graph.setCode_relabel f id (spread annotated c note code).code
  rw [spread_relabel annotated c note, apply_ite (State.relabel f)]
  simp only [Spread.relabel, State.relabel, stored]

theorem enter_relabel (source : Nat) (p : Instr) (s : State) (id : Nat) :
    enter false (facts.relabel f) source (p.relabel f) c (s.relabel f) id =
      (enter annotated facts source p c s id).relabel f := by
  have found : (s.relabel f).graph.block? id = (s.graph.block? id).map (Block.relabel f) :=
    s.graph.block?_relabel f id
  unfold enter
  rw [found]
  cases s.graph.block? id with
  | none => rfl
  | some b =>
    have same : (facts.relabel f).available (b.relabel f) c = facts.available b c := rfl
    simp only [Option.map_some]
    by_cases holds : facts.available b c = true
    · rw [if_pos (same.trans holds), if_pos holds]
      exact carry_relabel annotated c _ _ s id b.code
    · rw [if_neg fun holds' => holds (same.symm.trans holds'), if_neg holds]

theorem foldl_enter_relabel (source : Nat) (p : Instr) (s : State) (ids : List Nat) :
    ids.foldl (enter false (facts.relabel f) source (p.relabel f) c) (s.relabel f) =
      (ids.foldl (enter annotated facts source p c) s).relabel f := by
  induction ids generalizing s with
  | nil => rfl
  | cons id ids ih => rw [List.foldl_cons, List.foldl_cons, enter_relabel annotated, ih]

variable (injective : Injective f)

include injective

theorem depart?_relabel (id : Nat) (s : State) (i : Nat) :
    depart? false (facts.relabel f) id (s.relabel f) i =
      (depart? annotated facts id s i).map (Departure.relabel f) := by
  have found : (s.relabel f).graph.block? id = (s.graph.block? id).map (Block.relabel f) :=
    s.graph.block?_relabel f id
  unfold depart?
  rw [found]
  cases s.graph.block? id with
  | none => rfl
  | some b =>
    simp only [Option.map_some, Option.bind_some, Block.code_relabel, List.getElem?_map]
    cases b.code[i]? with
    | none => rfl
    | some p =>
      have makes : Copy.of? (facts.relabel f).reserved (p.relabel f) =
          Copy.of? facts.reserved p := rfl
      simp only [Option.map_some, Option.bind_some, makes]
      cases Copy.of? facts.reserved p with
      | none => rfl
      | some c =>
        have same := spread_relabel (f := f) annotated c ("copy propagated: " ++ p.text)
          ("copy propagated: " ++ (p.relabel f).text) (b.code.drop (i + 1))
        have stored (code : List Instr) :=
          s.graph.setCode_relabel f id (b.code.take (i + 1) ++ code)
        simp only [List.map_append, List.map_take] at stored
        simp only [Option.map_some, ← List.map_drop, same, Facts.reaches_relabel facts injective,
          Departure.relabel, State.relabel, Spread.relabel, stored]
        rfl

theorem propagate_relabel (id : Nat) (s : State) (i : Nat) :
    propagate false (facts.relabel f) id (s.relabel f) i =
      (propagate annotated facts id s i).relabel f := by
  rw [propagate_eq, propagate_eq, depart?_relabel annotated injective]
  cases depart? annotated facts id s i with
  | none => rfl
  | some d => exact foldl_enter_relabel annotated d.copy id d.instr d.state d.onward

variable (facts) in
/-- Copy propagation does not look at identities and notes. -/
theorem run_relabel (g : Graph) (id : Nat) :
    run false (facts.relabel f) (g.relabel f) id = (run annotated facts g id).relabel f := by
  unfold run
  rw [Graph.block?_relabel]
  cases g.block? id with
  | none => rfl
  | some b =>
    simp only [Option.map_some, Block.code_relabel, List.length_map]
    have all : ∀ (is : List Nat) (s : State),
        is.foldl (propagate false (facts.relabel f) id) (s.relabel f) =
          (is.foldl (propagate annotated facts id) s).relabel f := by
      intro is s
      induction is generalizing s with
      | nil => rfl
      | cons i is ih =>
        rw [List.foldl_cons, List.foldl_cons, propagate_relabel annotated injective, ih]
    exact all _ { graph := g }

end Propagation

/-! ## Passes -/

/-- The options of a run that leaves no notes. -/
def Options.silent (o : Options) : Options := { o with verbose := 0 }

/-- The workspace under other identities. -/
def Workspace.relabel (f : Nat → Nat) (w : Workspace) : Workspace :=
  { w with graph := w.graph.relabel f, facts := w.facts.relabel f, nextId := f w.nextId }

namespace Workspace

variable {o : Options} {w w' : Workspace} {pass : Pass} {b : Block} {changed : Bool}

/-- A pass frees no identity. -/
theorem nextId_le_apply (o : Options) (pass : Pass) (w : Workspace) (b : Block) :
    w.nextId ≤ (pass.apply o w b).1.nextId := by
  cases pass with
  | redundancy => exact (Redundancy.run_descends (w.facts.view o.annotated b) ⟨b.code, w.nextId⟩).le
  | sharing => exact (Sharing.run_descends (w.facts.view o.annotated b) ⟨b.code, w.nextId⟩).le
  | folding => exact (Folding.run_descends (w.facts.view o.annotated b) ⟨b.code, w.nextId⟩).le
  | propagation => exact Nat.le_refl w.nextId
  | deadCode => exact Nat.le_refl w.nextId

theorem store_relabel (w : Workspace) (id : Nat) {x x' : BlockCode} (same : x' = x.relabel f) :
    (w.relabel f).store id x' = (w.store id x).relabel f := by
  subst same
  exact congrArg (fun g : Graph => ({ w with
    graph := g, facts := w.facts.relabel f, nextId := f x.nextId } : Workspace))
      (w.graph.setCode_relabel f id x.code)

theorem create_relabel (injective : Injective f) (o : Options) (g : Graph) (nextId : Nat)
    (tally : Tally) :
    create o.silent (g.relabel f) (f nextId) tally = (create o g nextId tally).relabel f := by
  have facts := Facts.analyze_relabel injective g o.reserved
  unfold create
  rw [show o.silent.reserved = o.reserved from rfl, facts]
  rfl

theorem refresh_relabel (injective : Injective f) (o : Options) (w : Workspace) :
    (w.relabel f).refresh o.silent = (w.refresh o).relabel f := by
  have facts := Facts.analyze_relabel injective w.graph o.reserved
  have stale : (w.relabel f).stale = w.stale := rfl
  have graph : (w.relabel f).graph = w.graph.relabel f := rfl
  unfold refresh
  rw [stale, graph, show o.silent.reserved = o.reserved from rfl, facts]
  cases w.stale <;> rfl

/-- What constant folding says of a block: whether it has changed, or what went wrong. -/
def verdict (outcome : Folding.Outcome) : Except Fault Bool :=
  match outcome.fault with
  | some fault => .error fault
  | none => .ok outcome.changed

/-- No pass looks at identities and notes. -/
theorem apply_relabel (injective : Injective f) (fresh : FreshFrom f w.nextId) (o : Options)
    (pass : Pass) (b : Block) : pass.apply o.silent (w.relabel f) (b.relabel f) =
      ((pass.apply o w b).1.relabel f, (pass.apply o w b).2) := by
  let v := w.facts.view o.annotated b
  let block : BlockCode := ⟨b.code, w.nextId⟩
  cases pass with
  | redundancy =>
    have stepped := congrArg Option.isSome (Redundancy.step_relabel v block fresh)
    rw [Option.isSome_map] at stepped
    exact Prod.ext (store_relabel w b.id (Redundancy.run_relabel v block fresh))
      (congrArg Except.ok stepped)
  | sharing =>
    have stepped := congrArg Option.isSome (Sharing.step_relabel v block fresh)
    rw [Option.isSome_map] at stepped
    exact Prod.ext (store_relabel w b.id (Sharing.run_relabel v block fresh))
      (congrArg Except.ok stepped)
  | folding =>
    have ran := Folding.run_relabel v block fresh
    have said := congrArg verdict ran
    exact Prod.ext (store_relabel w b.id (congrArg Folding.Outcome.block ran)) said
  | propagation =>
    have ran := Propagation.run_relabel o.annotated w.facts injective w.graph b.id
    have changed : (Propagation.run false (w.facts.relabel f) (w.graph.relabel f) b.id).changed =
        (Propagation.run o.annotated w.facts w.graph b.id).changed := by
      rw [ran]
      rfl
    exact Prod.ext
      (congrArg (fun s : Propagation.State => ({ w.relabel f with
        graph := s.graph, stale := w.stale || s.elsewhere } : Workspace)) ran)
      (congrArg Except.ok changed)
  | deadCode =>
    have stepped := congrArg Option.isSome (DeadCode.step_relabel v b.code (f := f))
    rw [Option.isSome_map] at stepped
    have ran : (⟨DeadCode.run v.silent (b.code.map (Instr.relabel f)), f w.nextId⟩ : BlockCode) =
        BlockCode.relabel f ⟨DeadCode.run v b.code, w.nextId⟩ :=
      congrArg (BlockCode.mk · (f w.nextId)) (DeadCode.run_relabel v b.code)
    exact Prod.ext (store_relabel w b.id ran) (congrArg Except.ok stepped)

end Workspace

/-! ## Rounds -/

/-- The program under other identities. -/
def Program.relabel (f : Nat → Nat) (program : Program) : Program :=
  ⟨program.code.map (Instr.relabel f), f program.nextId⟩

namespace Optimizer

/-- The outcome under other identities. -/
def BlockOutcome.relabel (f : Nat → Nat) (outcome : BlockOutcome) : BlockOutcome :=
  { outcome with workspace := outcome.workspace.relabel f }

section Block

variable {o : Options} {w w' : Workspace} {id : Nat} {changed : Bool}

/-- No identity is freed: what the passes do not do, rounds do not do either. -/
theorem nextId_le_of_applies {id : Nat} {w w' : Workspace} {b : Block} {pass : Pass}
    {changed : Bool} (_ : True) (_ : w.graph.block? id = some b)
    (applied : pass.apply o w b = (w', .ok changed)) : w.nextId ≤ w'.nextId := by
  have le := Workspace.nextId_le_apply o pass w b
  rwa [applied] at le

theorem nextId_le_applyAt {pass : Pass} (applied : applyAt o id w pass = .ok (w', changed)) :
    w.nextId ≤ w'.nextId :=
  applyAt_related (K := fun _ => True) (R := fun w w' => w.nextId ≤ w'.nextId) (fun _ => le_rfl)
    (fun le _ same => same ▸ le) nextId_le_of_applies trivial applied

theorem nextId_le_round {passes : List Pass} (rounds : round o id w passes = .ok (w', changed)) :
    w.nextId ≤ w'.nextId :=
  round_related (K := fun _ => True) (R := fun w w' => w.nextId ≤ w'.nextId) (fun _ => le_rfl)
    le_trans (fun le _ same => same ▸ le) nextId_le_of_applies (fun _ _ => trivial) rounds

theorem nextId_le_settleBlock {limit : Nat} {outcome : BlockOutcome}
    (settles : settleBlock o id limit w changed = .ok outcome) :
    w.nextId ≤ outcome.workspace.nextId :=
  settleBlock_related (K := fun _ => True) (R := fun w w' => w.nextId ≤ w'.nextId) (fun _ => le_rfl)
    le_trans (fun le _ same => same ▸ le) nextId_le_of_applies (fun _ _ => trivial) settles

variable (injective : Injective f)

include injective

theorem applyAt_relabel (fresh : FreshFrom f w.nextId) (pass : Pass) :
    applyAt o.silent id (w.relabel f) pass =
      (applyAt o id w pass).map fun (w, changed) => (w.relabel f, changed) := by
  have found : (w.relabel f).graph.block? id = (w.graph.block? id).map (Block.relabel f) :=
    w.graph.block?_relabel f id
  unfold applyAt
  rw [found]
  cases w.graph.block? id with
  | none => rfl
  | some b =>
    have applied := Workspace.apply_relabel injective fresh o pass b
    simp only [Option.map_some, applied]
    obtain ⟨w', result⟩ := pass.apply o w b
    cases result with
    | error fault => rfl
    | ok changed =>
      have refreshed := Workspace.refresh_relabel injective o
        (if changed then { w' with tally.changes := w'.tally.changes + 1 } else w')
      rw [apply_ite (Workspace.relabel f)] at refreshed
      exact congrArg (fun w => Except.ok (w, changed)) refreshed

theorem round_relabel (fresh : FreshFrom f w.nextId) (passes : List Pass) :
    round o.silent id (w.relabel f) passes =
      (round o id w passes).map fun (w, changed) => (w.relabel f, changed) := by
  induction passes generalizing w with
  | nil => rfl
  | cons pass passes ih =>
    rw [round, round, applyAt_relabel injective fresh]
    cases applied : applyAt o id w pass with
    | error fault => rfl
    | ok result =>
      have later := ih (fresh.mono (nextId_le_applyAt applied))
      simp only [bind, Except.bind, Except.map, later]
      cases round o id result.1 passes <;> rfl

theorem settleBlock_relabel (fresh : FreshFrom f w.nextId) (limit : Nat) (changed : Bool) :
    settleBlock o.silent id limit (w.relabel f) changed =
      (settleBlock o id limit w changed).map (BlockOutcome.relabel f) := by
  induction limit generalizing w changed with
  | zero => rfl
  | succ limit ih =>
    rw [settleBlock, settleBlock, round_relabel injective fresh]
    cases rounds : round o id w Pass.all with
    | error fault => rfl
    | ok result =>
      have later := ih (fresh.mono (nextId_le_round rounds)) true
      simp only [bind, Except.bind, Except.map, later]
      split <;> rfl

end Block

variable {o : Options} {w : Workspace}

theorem nextId_refresh (o : Options) (w : Workspace) : (w.refresh o).nextId = w.nextId := by
  unfold Workspace.refresh
  split <;> rfl

theorem settleBlocks_relabel (injective : Injective f) (fresh : FreshFrom f w.nextId)
    (limit : Nat) (ids : List Nat) : settleBlocks o.silent limit ids (w.relabel f) =
      (settleBlocks o limit ids w).map (BlockOutcome.relabel f) := by
  induction ids generalizing w with
  | nil => rfl
  | cons id ids ih =>
    have refreshed : FreshFrom f (w.refresh o).nextId := by rwa [nextId_refresh]
    rw [settleBlocks, settleBlocks, Workspace.refresh_relabel injective,
      settleBlock_relabel injective refreshed]
    cases settles : settleBlock o id limit (w.refresh o) false with
    | error fault => rfl
    | ok first =>
      have kept := nextId_le_settleBlock settles
      have stays : FreshFrom f (if first.changed then first.workspace.invalidate
          else first.workspace).nextId := by
        split <;> exact refreshed.mono kept
      have next := ih stays
      rw [apply_ite (Workspace.relabel f)] at next
      simp only [bind, Except.bind, Except.map, BlockOutcome.relabel, pure, Except.pure]
      cases first.stable with
      | false => rfl
      | true =>
        have invalidated : (first.workspace.relabel f).invalidate =
            first.workspace.invalidate.relabel f := rfl
        simp only [Bool.not_true, Bool.false_eq_true, if_false, invalidated, next]
        cases settleBlocks o limit ids (if first.changed then first.workspace.invalidate
          else first.workspace) <;> rfl

/-- The state between two cycles under other identities. -/
def State.relabel (f : Nat → Nat) (s : State) : State :=
  { s with program := s.program.relabel f }

theorem codeSize_relabel (f : Nat → Nat) (code : List Instr) :
    codeSize (code.map (Instr.relabel f)) = codeSize code := by
  unfold codeSize
  rw [List.countP_map]
  rfl

theorem cycle_relabel (injective : Injective f) {s : State} (fresh : FreshFrom f s.program.nextId)
    (o : Options) (limit : Nat) : cycle o.silent limit (s.relabel f) =
      (cycle o limit s).map fun (s, changed) => (s.relabel f, changed) := by
  have size : (s.relabel f).program.size = s.program.size := codeSize_relabel f s.program.code
  have simplified : Jumps.run o.silent.annotated (s.relabel f).program.nextId
      (s.relabel f).program.code = _ := Jumps.run_relabel o.annotated fresh s.program.code
  have later : FreshFrom f (Jumps.run o.annotated s.program.nextId s.program.code).nextId :=
    fresh.mono (Jumps.runFrom_descends o.annotated s.program.nextId [] s.program.code
      fun _ => rfl).le
  unfold cycle
  rw [size, simplified]
  generalize Jumps.run o.annotated s.program.nextId s.program.code = jumps at later
  have length : codeSize (jumps.relabel f).code = codeSize jumps.code :=
    codeSize_relabel f jumps.code
  have built : Graph.build (jumps.relabel f).code = (Graph.build jumps.code).relabel f :=
    Graph.build_relabel f jumps.code
  have created := Workspace.create_relabel injective o (Graph.build jumps.code) jumps.nextId
    { s.tally with cycles := s.tally.cycles + 1 }
  have settled : settleBlocks o.silent limit (List.range (Graph.build jumps.code).size)
      (Workspace.create o.silent ((Graph.build jumps.code).relabel f) (f jumps.nextId)
        { s.tally with cycles := s.tally.cycles + 1 }) = _ :=
    created ▸ settleBlocks_relabel injective later limit _
  have nextId : (jumps.relabel f).nextId = f jumps.nextId := rfl
  have tally : (s.relabel f).tally = s.tally := rfl
  simp only [length, built, Graph.size_relabel, nextId, tally, settled]
  cases settleBlocks o limit (List.range (Graph.build jumps.code).size)
    (Workspace.create o (Graph.build jumps.code) jumps.nextId
      { s.tally with cycles := s.tally.cycles + 1 }) with
  | error fault => rfl
  | ok outcome =>
    have flat : (outcome.relabel f).workspace.graph.flatten =
        outcome.workspace.graph.flatten.map (Instr.relabel f) :=
      outcome.workspace.graph.flatten_relabel f
    have final (nextId : Nat) : Program.size
        ⟨outcome.workspace.graph.flatten.map (Instr.relabel f), nextId⟩ =
          codeSize outcome.workspace.graph.flatten := codeSize_relabel f _
    simp only [bind, Except.bind, Except.map, pure, Except.pure, flat, final]
    rfl

theorem cycles_relabel (injective : Injective f) {s : State}
    (fresh : FreshFrom f s.program.nextId) (o : Options) (limit left : Nat) :
    cycles o.silent limit left (s.relabel f) =
      (cycles o limit left s).map (State.relabel f) := by
  induction left generalizing s with
  | zero => rfl
  | succ left ih =>
    rw [cycles, cycles, cycle_relabel injective fresh]
    cases cycled : cycle o limit s with
    | error fault => rfl
    | ok result =>
      have later := ih (fresh.mono (cycle_descends cycled).le)
      have same : (result.1.relabel f).notConverging = result.1.notConverging := rfl
      simp only [bind, Except.bind, Except.map, later, same]
      split <;> rfl

/-- What a run shows, but for the notes: the program, its size along the way, and whether the
optimizer gave up. How much work has been done is not part of it. -/
structure Seen where
  code : List Instr
  nextId : Nat
  summary : Summary
  notConverging : Option Nat
deriving DecidableEq

/-- What is seen of a state. -/
def State.seen (s : State) : Seen :=
  ⟨s.program.code.map Instr.bare, s.program.nextId, s.summary, s.notConverging⟩

theorem size_summarize (o : Options) (s : State) :
    (summarize o s).program.size = s.program.size := by
  have same := Instr.map_relabel_of_bare id (bare_summarize o s)
  rw [Program.size, Program.size, ← codeSize_relabel id, same, codeSize_relabel]

/-- What is seen of a state does not depend on its notes, nor on the work that has been done. -/
theorem State.seen_eq {s t : State}
    (code : s.program.code.map Instr.bare = t.program.code.map Instr.bare)
    (nextId : s.program.nextId = t.program.nextId) (summary : s.summary = t.summary)
    (notConverging : s.notConverging = t.notConverging) : s.seen = t.seen := by
  unfold seen
  rw [code, nextId, summary, notConverging]

/-- What is done behind the last cycle does not depend on identities and notes, but for notes. -/
theorem seen_finish_relabel (f : Nat → Nat) (o : Options) (s : State) :
    ((s.relabel f).finish o.silent).seen = ((s.finish o).relabel f).seen := by
  have same : (summarize o s).program.code.map (Instr.relabel f) =
      s.program.code.map (Instr.relabel f) := Instr.map_relabel_of_bare f (bare_summarize o s)
  have size : (s.relabel f).program.size = s.program.size := codeSize_relabel f s.program.code
  have silent : (s.relabel f).finish o.silent =
      { s.relabel f with summary.final := s.program.size } := by
    simp [State.finish, Options.summarize, Options.silent, size]
  rw [silent]
  unfold State.finish
  split
  · refine State.seen_eq ?_ rfl ?_ rfl
    · exact congrArg (List.map Instr.bare) same.symm
    · simp only [State.relabel, size_summarize]
      rfl
  · rfl

/-- The optimizer does the same to a program under other identities, and whether it leaves notes
or not. -/
theorem run_relabel (injective : Injective f) (o : Options) {program : Program}
    (fresh : FreshFrom f program.nextId) : (run o.silent (program.relabel f)).map State.seen =
      (run o program).map fun s => (s.relabel f).seen := by
  have size : (program.relabel f).size = program.size := codeSize_relabel f program.code
  have limit : o.silent.cycleLimit program.size = o.cycleLimit program.size := rfl
  have start : State.start (program.relabel f) = (State.start program).relabel f := by
    unfold State.start
    rw [size]
    rfl
  rw [run_eq, run_eq, size, limit, start, cycles_relabel injective fresh]
  cases cycles o (o.cycleLimit program.size) (o.cycleLimit program.size) (.start program) with
  | error fault => rfl
  | ok s => exact congrArg Except.ok (seen_finish_relabel f o s)

end Optimizer

end MipsFlow
