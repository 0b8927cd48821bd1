import Mathlib.Order.Filter.AtTopBot.Basic
import MipsFlow.Proofs.Faults
import MipsFlow.Proofs.Heights
import MipsFlow.Proofs.Unchanged

/-!
# The optimizer converges

Every change brings a program further: it gets lighter, or copy propagation brings it down while it
stays as it is otherwise (`Graph.Below`). There are no endless descents, so the rounds over a block,
the rounds over a program and the searches inside the passes all come to an end by themselves, and
if the optimizer may take that many rounds the limit makes no difference (`Optimizer.converges`).
A limit that is large enough for a block, or for a program, is only known to exist; so what holds
for all large limits is put together as such.
-/

namespace MipsFlow

open Filter (Eventually atTop)

/-! ## Descent -/

theorem Operand.kind_blur (o : Operand) : o.blur.kind = o.kind := by
  cases o <;> rfl

theorem Command.weight_blur (c : Command) : c.blur.weight = c.weight := by
  refine weight_congr rfl ?_
  rw [kinds, kinds, blur, List.map_map]
  exact List.map_congr_left fun o _ => o.kind_blur

theorem Instr.weight_blur (p : Instr) : p.blur.weight = p.weight := by
  unfold weight gauge
  rw [show p.blur.command? = p.command?.map Command.blur from Recast.blur.command? p]
  cases p.command? with
  | none => rfl
  | some c => exact c.weight_blur

namespace Graph

variable {g g' g'' : Graph} {id : Nat} {b : Block} {code : List Instr}

/-- The weight of all instructions. -/
def weight (g : Graph) : Nat := total Instr.weight g.flatten

theorem weight_of_outline (same : g'.outline = g.outline) : g'.weight = g.weight := by
  have read (g : Graph) : total Instr.weight (g.recast .blur).flatten = g.weight := by
    rw [flatten_recast, total, List.map_map]
    exact congrArg List.sum (List.map_congr_left fun p _ => p.weight_blur)
  rw [← read, ← read, recast_of_outline same]

theorem weight_setCode (here : g.block? id = some b)
    (lighter : total Instr.weight code < total Instr.weight b.code) :
    (g.setCode id code).weight < g.weight := by
  obtain ⟨before, after, isWhole, exchanged⟩ := flatten_split here
  rw [weight, weight, isWhole, exchanged]
  simp only [total_append]
  omega

/-- The first graph is further on than the second: it is lighter, or a lower one of the same
outline. -/
inductive Below (g' g : Graph) : Prop
  | lighter : g'.weight < g.weight → Below g' g
  | lower : g'.outline = g.outline → g'.height < g.height → Below g' g

namespace Below

theorem trans (first : Below g' g) (second : Below g'' g') : Below g'' g := by
  cases first with
  | lighter lighter =>
    cases second with
    | lighter further => exact .lighter (further.trans lighter)
    | lower same _ => exact .lighter (weight_of_outline same ▸ lighter)
  | lower same lower =>
    cases second with
    | lighter lighter => exact .lighter (weight_of_outline same ▸ lighter)
    | lower same' further => exact .lower (same'.trans same) (further.trans lower)

/-- There is no endless descent. -/
theorem wellFounded : WellFounded Below := by
  have lex : WellFounded
      (InvImage (Prod.Lex (· < ·) (· < ·)) fun g : Graph => (g.weight, g.height)) :=
    InvImage.wf _ (WellFounded.prod_lex Nat.lt_wfRel.wf Nat.lt_wfRel.wf)
  refine Subrelation.wf (fun {a b} below => ?_) lex
  cases below with
  | lighter lighter => exact Prod.Lex.left _ _ lighter
  | lower same lower =>
    show Prod.Lex _ _ (a.weight, a.height) (b.weight, b.height)
    rw [weight_of_outline same]
    exact Prod.Lex.right _ lower

end Below

/-- The graph is further on if a change is reported, and as it was otherwise. -/
def Moves (changed : Bool) (g g' : Graph) : Prop := if changed then Below g' g else g' = g

theorem Moves.trans {changed changed' : Bool} (first : Moves changed g g')
    (second : Moves changed' g' g'') : Moves (changed || changed') g g'' := by
  cases changed with
  | false =>
    obtain rfl : g' = g := first
    rwa [Bool.false_or]
  | true =>
    cases changed' with
    | false =>
      obtain rfl : g'' = g' := second
      exact first
    | true => exact Below.trans first second

/-- What is further on than a built graph still is when its program is cut and linked again. -/
theorem Moves.rebuild {changed : Bool} (moves : Moves changed (build code) g) :
    Moves changed (build code) (build g.flatten) := by
  cases changed with
  | false =>
    obtain rfl : g = build code := moves
    rw [flatten_build]
    rfl
  | true =>
    have below : Below g (build code) := moves
    cases below with
    | lighter lighter =>
      refine Below.lighter ?_
      rwa [weight, flatten_build]
    | lower same lower =>
      have rebuilt : build g.flatten = g := build_flatten_of_recast .blur (recast_of_outline same)
      rw [rebuilt]
      exact Below.lower same lower

end Graph

/-! ## Passes -/

namespace Workspace

variable {o : Options} {outdated : Nat → Prop} {w w' : Workspace} {b : Block} {id : Nat}
variable {pass : Pass} {changed : Bool}

/-- What the facts of the workspace say of copies is right, but maybe for some blocks. -/
structure Sound (o : Options) (outdated : Nat → Prop) (w : Workspace) : Prop where
  regular : w.graph.Regular
  reserved : w.facts.reserved = .ofList o.reserved
  current : w.stale = false
  copies : w.facts.CopiesSound w.graph outdated

/-- Facts that have just been computed are right. -/
theorem sound_of_analyze (regular : w.graph.Regular)
    (facts : w.facts = Facts.analyze w.graph o.reserved) (current : w.stale = false) :
    w.Sound o outdated := by
  refine ⟨regular, ?_, current, ?_⟩
  all_goals rw [facts]
  · rfl
  · exact (analyze_copiesSound regular).mono fun _ never => never.elim

theorem sound_of_stale (regular : w.graph.Regular) (stale : w.stale = true) :
    (w.refresh o).Sound o outdated := by
  rw [← refresh_graph o w] at regular
  refine sound_of_analyze regular ?_ (refresh_stale o w)
  rw [refresh_graph, refresh_facts stale]

/-- What copy propagation makes of a graph with facts that are right but for the block. -/
theorem Sound.sinks (sound : w.Sound o (· = id))
    (reserves : ∀ r ∈ Reg.alwaysReserved, r ∈ o.reserved) :
    Propagation.Sinks w.graph id (Propagation.run o.annotated w.facts w.graph id) :=
  Propagation.run_sinks o.annotated sound.regular sound.copies
    (reserves_of_reserved sound.reserved reserves)

/-- A pass that reports a change brings the graph further. -/
theorem apply_moves (sound : w.Sound o (· = id))
    (reserves : ∀ r ∈ Reg.alwaysReserved, r ∈ o.reserved) (here : w.graph.block? id = some b)
    (applied : pass.apply o w b = (w', .ok changed)) : Graph.Moves changed w.graph w'.graph := by
  have place : b.id = id := sound.regular.place here
  subst place
  cases changed with
  | false => exact congrArg graph (eq_of_unchanged here applied)
  | true =>
    cases pass with
    | redundancy =>
      obtain ⟨rfl, some⟩ := Prod.mk.inj applied
      exact .lighter (Graph.weight_setCode here (Redundancy.weight_run (Except.ok.inj some)))
    | sharing =>
      obtain ⟨rfl, some⟩ := Prod.mk.inj applied
      exact .lighter (Graph.weight_setCode here (Sharing.weight_run (Except.ok.inj some)))
    | folding =>
      obtain ⟨rfl, some⟩ := Prod.mk.inj applied
      split at some
      · cases some
      · exact .lighter (Graph.weight_setCode here
          ((Folding.weight_runFrom _ _ _ _).2 (Except.ok.inj some)))
    | propagation =>
      obtain ⟨rfl, some⟩ := Prod.mk.inj applied
      have sinks := sound.sinks reserves
      exact .lower sinks.outline (sinks.lower (Except.ok.inj some))
    | deadCode =>
      obtain ⟨rfl, some⟩ := Prod.mk.inj applied
      exact .lighter (Graph.weight_setCode here (DeadCode.weight_run (Except.ok.inj some)))

/-- Every pass leaves the facts right, but maybe for the block. -/
theorem apply_sound (sound : w.Sound o (· = id))
    (reserves : ∀ r ∈ Reg.alwaysReserved, r ∈ o.reserved) (here : w.graph.block? id = some b)
    (applied : pass.apply o w b = (w', .ok changed)) : (w'.refresh o).Sound o (· = id) := by
  have place : b.id = id := sound.regular.place here
  have stored (block : BlockCode) : ((w.store b.id block).refresh o).Sound o (· = id) := by
    have shape : w.graph.SameShape (w.graph.setCode b.id block.code) := .setCode _
    rw [refresh_of_current (show (w.store b.id block).stale = false from sound.current)]
    refine ⟨shape.regular sound.regular, sound.reserved, sound.current,
      sound.copies.recode shape fun other isOther => ?_⟩
    exact Graph.block?_setCode_of_ne (place ▸ isOther)
  cases pass with
  | redundancy | sharing | deadCode =>
    obtain ⟨rfl, -⟩ := Prod.mk.inj applied
    exact stored _
  | folding =>
    obtain ⟨rfl, -⟩ := Prod.mk.inj applied
    exact stored _
  | propagation =>
    obtain ⟨rfl, -⟩ := Prod.mk.inj applied
    rw [place]
    have sinks := sound.sinks reserves
    have shape := Graph.sameShape_of_outline sinks.outline
    have regular := shape.regular sound.regular
    cases elsewhere : (Propagation.run o.annotated w.facts w.graph id).elsewhere with
    | true => exact sound_of_stale regular (by simp)
    | false =>
      rw [refresh_of_current (by simp [sound.current])]
      exact ⟨regular, sound.reserved, by simp [sound.current],
        sound.copies.recode shape fun other isOther => sinks.others elsewhere other isOther⟩

/-- That the facts are right outlasts the work on all blocks. -/
theorem sound_lasting (reserves : ∀ r ∈ Reg.alwaysReserved, r ∈ o.reserved) :
    Lasting o (fun _ => True) (Sound o) where
  current sound := sound.current
  congr {outdated w w'} sound graph facts current := by
    obtain ⟨regular, reserved, -, copies⟩ := sound
    rw [← graph] at regular copies
    rw [← facts] at reserved copies
    exact ⟨regular, reserved, current, copies⟩
  mono sound fewer := { sound with copies := sound.copies.mono fewer }
  renew sound := sound_of_stale sound.regular rfl
  apply {id w w' b pass changed} _ sound here applied := by
    refine ⟨apply_sound sound reserves here applied, fun unchanged outdated before => ?_⟩
    subst unchanged
    have place : b.id = id := sound.regular.place here
    obtain rfl := eq_of_unchanged (place ▸ here) applied
    rwa [refresh_of_current before.current]

end Workspace

namespace Optimizer

open Workspace

/-! ## Rounds -/

section Rounds

variable {o : Options} {w w' : Workspace} {id limit : Nat} {changed : Bool}
variable (reserves : ∀ r ∈ Reg.alwaysReserved, r ∈ o.reserved)

include reserves

theorem applyAt_moves (sound : w.Sound o (· = id)) {pass : Pass}
    (applied : applyAt o id w pass = .ok (w', changed)) :
    Graph.Moves changed w.graph w'.graph := by
  rcases applyAt_eq_ok applied with ⟨-, rfl, rfl⟩ | ⟨b, w₁, here, isApplied, rfl⟩
  · rfl
  · have moves := apply_moves sound reserves here isApplied
    rw [refresh_graph]
    split <;> exact moves

theorem round_moves (sound : w.Sound o (· = id)) {passes : List Pass}
    (rounds : round o id w passes = .ok (w', changed)) : Graph.Moves changed w.graph w'.graph := by
  induction passes generalizing w w' changed with
  | nil =>
    cases rounds
    rfl
  | cons pass passes ih =>
    obtain ⟨w₁, first, others, applied, later, rfl⟩ := round_cons_eq_ok rounds
    have moves := applyAt_moves reserves sound applied
    have further := (applyAt_outlasts (sound_lasting reserves) sound trivial applied).holds
    exact moves.trans (ih further later)

theorem settleBlock_moves (sound : w.Sound o (· = id)) {outcome : BlockOutcome}
    (settles : settleBlock o id limit w changed = .ok outcome) :
    ∃ more, outcome.changed = (changed || more) ∧
      Graph.Moves more w.graph outcome.workspace.graph := by
  induction limit generalizing w changed with
  | zero =>
    cases settles
    exact ⟨false, (Bool.or_false _).symm, rfl⟩
  | succ limit ih =>
    obtain ⟨w₁, more, rounds, ends⟩ := settleBlock_succ_eq_ok settles
    have moves := round_moves reserves sound rounds
    have further :=
      (round_outlasts (sound_lasting reserves) sound (fun _ _ => trivial) rounds).holds
    rcases ends with ⟨rfl, rfl⟩ | ⟨rfl, settles⟩
    · exact ⟨false, (Bool.or_false _).symm, moves⟩
    · obtain ⟨more, isChanged, moves'⟩ := ih further settles
      exact ⟨true, by rw [isChanged]; simp, moves.trans moves'⟩

omit reserves in
/-- What holds from the second limit on holds for all large limits. -/
theorem eventually_of_succ {property : Nat → Prop}
    (later : ∀ᶠ limit in atTop, property (limit + 1)) : ∀ᶠ limit in atTop, property limit := by
  rw [← Filter.map_add_atTop_eq_nat 1]
  exact later

/-- Rounds over a block come to an end. -/
theorem settleBlock_converges (sound : w.Sound o (· = id)) (changed : Bool) :
    ∃ result, (∀ᶠ limit in atTop, settleBlock o id limit w changed = result) ∧
      ∀ outcome, result = .ok outcome → outcome.stable = true := by
  obtain ⟨g, isGraph⟩ : ∃ g, g = w.graph := ⟨_, rfl⟩
  induction g using Graph.Below.wellFounded.induction generalizing w changed with
  | h g ih =>
    subst isGraph
    cases rounds : round o id w Pass.all with
    | error fault =>
      refine ⟨.error fault, eventually_of_succ (.of_forall fun limit => ?_), by simp⟩
      rw [settleBlock, rounds]
      rfl
    | ok result =>
      obtain ⟨w', more⟩ := result
      cases more with
      | false =>
        refine ⟨.ok ⟨w', changed, true⟩, eventually_of_succ (.of_forall fun limit => ?_), ?_⟩
        · rw [settleBlock, rounds]
          rfl
        · rintro outcome ⟨⟩
          rfl
      | true =>
        have further :=
          (round_outlasts (sound_lasting reserves) sound (fun _ _ => trivial) rounds).holds
        obtain ⟨result, settles, stable⟩ := ih w'.graph (round_moves reserves sound rounds) further
          true rfl
        refine ⟨result, eventually_of_succ (settles.mono fun limit isResult => ?_), stable⟩
        rw [settleBlock, rounds]
        exact isResult

/-- Blocks that are settled one after the other come to an end. -/
theorem settleBlocks_converges (sound : (w.refresh o).Sound o fun _ => False) (ids : List Nat) :
    ∃ result, (∀ᶠ limit in atTop, settleBlocks o limit ids w = result) ∧
      ∀ outcome, result = .ok outcome → outcome.stable = true ∧
        Graph.Moves outcome.changed w.graph outcome.workspace.graph := by
  induction ids generalizing w with
  | nil =>
    refine ⟨.ok ⟨w, false, true⟩, .of_forall fun _ => rfl, ?_⟩
    rintro outcome ⟨⟩
    exact ⟨rfl, rfl⟩
  | cons id ids ih =>
    have lasting := sound_lasting reserves
    have here : (w.refresh o).Sound o (· = id) := lasting.mono sound fun _ never => never.elim
    obtain ⟨first, settles, stable⟩ := settleBlock_converges reserves here false
    cases first with
    | error fault =>
      refine ⟨.error fault, settles.mono fun limit faults => ?_, by simp⟩
      rw [settleBlocks, faults]
      rfl
    | ok first =>
      obtain ⟨enough, settled⟩ := settles.exists
      have isStable := stable first rfl
      have next := holds_next lasting sound (fun _ _ => trivial) settled
      obtain ⟨more, isChanged, moves⟩ := settleBlock_moves reserves here settled
      obtain ⟨others, settlesOthers, atEnd⟩ := ih next
      rw [refresh_graph] at moves
      refine ⟨others.map fun others => { others with changed := first.changed || others.changed },
        (settles.and settlesOthers).mono fun limit both => ?_, ?_⟩
      · obtain ⟨isFirst, isOthers⟩ := both
        simp only [settleBlocks, isFirst, isOthers, isStable, bind, Except.bind, pure, Except.pure]
        cases others <;> rfl
      · intro outcome isOutcome
        cases others with
        | error fault => cases isOutcome
        | ok others =>
          cases isOutcome
          obtain ⟨stable, further⟩ := atEnd others rfl
          have graph : (if first.changed then first.workspace.invalidate
              else first.workspace).graph = first.workspace.graph := by
            split <;> rfl
          rw [Bool.false_or] at isChanged
          rw [graph] at further
          exact ⟨stable, isChanged ▸ moves.trans further⟩

end Rounds

/-! ## Cycles -/

section Cycles

variable {o : Options} {s : State}

/-- Simplifying the jumps of a program brings its graph further. -/
theorem jumps_moves (annotated : Bool) (next : Nat) (code : List Instr) :
    Graph.Moves (Jumps.run annotated next code).changed (Graph.build code)
      (Graph.build (Jumps.run annotated next code).code) := by
  cases changed : (Jumps.run annotated next code).changed with
  | false =>
    have same : Jumps.run annotated next code = ⟨code, next, false⟩ :=
      Jumps.eq_of_unchanged changed
    rw [same]
    rfl
  | true =>
    refine Graph.Below.lighter ?_
    rw [Graph.weight, Graph.weight, Graph.flatten_build, Graph.flatten_build]
    exact (Jumps.weight_runFrom annotated next [] code).2 changed

/-- A cycle comes to an end, and brings the program further if it changes anything. -/
theorem cycle_converges (reserves : ∀ r ∈ Reg.alwaysReserved, r ∈ o.reserved) (s : State) :
    ∃ result, (∀ᶠ limit in atTop, cycle o limit s = result) ∧
      ∀ s' changed, result = .ok (s', changed) → s'.notConverging = none ∧
        Graph.Moves changed (Graph.build s.program.code) (Graph.build s'.program.code) := by
  have jumps := jumps_moves o.annotated s.program.nextId s.program.code
  have sound : ((s.workspace o).refresh o).Sound o fun _ => False := by
    rw [refresh_of_current rfl]
    exact sound_of_analyze (Graph.build_regular _) rfl rfl
  obtain ⟨blocks, settles, atEnd⟩ := settleBlocks_converges reserves sound
    (List.range (s.workspace o).graph.size)
  obtain ⟨enough, settled⟩ := settles.exists
  refine ⟨cycle o enough s, settles.mono fun limit isResult => ?_, fun s' changed cycled => ?_⟩
  · rw [cycle_eq, cycle_eq, isResult, settled]
    cases blocks with
    | error fault => rfl
    | ok outcome =>
      obtain ⟨stable, -⟩ := atEnd outcome rfl
      simp only [Except.map, State.next, stable, if_true]
  · obtain ⟨outcome, settles, ends⟩ := cycle_eq_ok cycled
    obtain ⟨stable, moves⟩ := atEnd outcome (settled.symm.trans settles)
    cases ends
    exact ⟨if_pos stable, jumps.trans moves.rebuild⟩

/-- Cycles come to an end. -/
theorem cycles_converge (reserves : ∀ r ∈ Reg.alwaysReserved, r ∈ o.reserved) (s : State) :
    ∃ n result, (∀ limit left, n ≤ limit → n ≤ left → cycles o limit left s = result) ∧
      ∀ final, result = .ok final → final.notConverging = none := by
  obtain ⟨g, isGraph⟩ : ∃ g, g = Graph.build s.program.code := ⟨_, rfl⟩
  induction g using Graph.Below.wellFounded.induction generalizing s with
  | h g ih =>
    subst isGraph
    obtain ⟨result, cycled, atEnd⟩ := cycle_converges reserves s
    obtain ⟨n, cycled⟩ := Filter.eventually_atTop.1 cycled
    cases result with
    | error fault =>
      refine ⟨n + 1, .error fault, fun limit left large more => ?_, by simp⟩
      obtain ⟨left, rfl⟩ : ∃ k, left = k + 1 := ⟨left - 1, by omega⟩
      rw [cycles, cycled limit (by omega)]
      rfl
    | ok result =>
      obtain ⟨s', changed⟩ := result
      obtain ⟨converged, moves⟩ := atEnd s' changed rfl
      cases changed with
      | false =>
        refine ⟨n + 1, .ok s', fun limit left large more => ?_, ?_⟩
        · obtain ⟨left, rfl⟩ : ∃ k, left = k + 1 := ⟨left - 1, by omega⟩
          rw [cycles, cycled limit (by omega)]
          rfl
        · rintro final ⟨⟩
          exact converged
      | true =>
        obtain ⟨m, result, further, atEnd⟩ := ih _ moves s' rfl
        refine ⟨max n m + 1, result, fun limit left large more => ?_, atEnd⟩
        obtain ⟨left, rfl⟩ : ∃ k, left = k + 1 := ⟨left - 1, by omega⟩
        rw [cycles, cycled limit (by omega)]
        simp only [bind, Except.bind, converged, Option.isNone_none, Bool.and_self, if_true]
        exact further limit left (by omega) (by omega)

end Cycles

/-! ## Runs -/

variable {o : Options} {program : Program}

section Limits

variable (o : Options) (n : Nat)

theorem settleBlock_setMaxCycles (id limit : Nat) (w : Workspace) (changed : Bool) :
    settleBlock { o with maxCycles := n } id limit w changed =
      settleBlock o id limit w changed := by
  induction limit generalizing w changed with
  | zero => rfl
  | succ limit ih =>
    rw [settleBlock, settleBlock]
    simp only [ih]
    rfl

theorem settleBlocks_setMaxCycles (limit : Nat) (ids : List Nat) (w : Workspace) :
    settleBlocks { o with maxCycles := n } limit ids w = settleBlocks o limit ids w := by
  induction ids generalizing w with
  | nil => rfl
  | cons id ids ih =>
    rw [settleBlocks, settleBlocks]
    simp only [settleBlock_setMaxCycles, ih]
    rfl

/-- The option that limits the number of cycles has no other effect. -/
theorem cycles_setMaxCycles (limit left : Nat) (s : State) :
    cycles { o with maxCycles := n } limit left s = cycles o limit left s := by
  induction left generalizing s with
  | zero => rfl
  | succ left ih =>
    have same : cycle { o with maxCycles := n } limit s = cycle o limit s := by
      unfold cycle
      simp only [settleBlocks_setMaxCycles]
      rfl
    rw [cycles, cycles, same]
    simp only [ih]

theorem run_setMaxCycles {limit : Nat} (positive : 0 < limit) (program : Program) :
    run { o with maxCycles := limit } program =
      (cycles o limit limit (.start program)).map (State.finish o) := by
  rw [run_eq, cycles_setMaxCycles, Options.cycleLimit, if_pos positive]
  rfl

end Limits

/-- Blocks that have been settled have got through the first round over the first of them. -/
theorem round_ok_of_settleBlocks {w : Workspace} {id limit : Nat} {ids : List Nat}
    {outcome : BlockOutcome} (settles : settleBlocks o (limit + 1) (id :: ids) w = .ok outcome) :
    ∃ result, round o id (w.refresh o) Pass.all = .ok result := by
  obtain ⟨first, settlesFirst, -⟩ := settleBlocks_cons_eq_ok settles
  obtain ⟨w₁, more, rounds, -⟩ := settleBlock_succ_eq_ok settlesFirst
  exact ⟨_, rounds⟩

/-- The optimizer converges. For any program and any options there is a bound such that the run
comes out the same for every limit from that bound on: the instructions, the summary and the work
done. It does not give up; and it does not fault, unless a product of the program lacks an operand.
The searches that redundancy elimination, common subexpression elimination and dead code elimination
start again after every change find nothing more in the end, whatever the block. -/
theorem converges (reserves : ∀ r ∈ Reg.alwaysReserved, r ∈ o.reserved) (program : Program) :
    (∃ n result, (∀ limit, n ≤ limit → run { o with maxCycles := limit } program = result) ∧
      ((∃ final, result = .ok final ∧ final.notConverging = none) ∨
        (∃ fault, result = .error fault) ∧ ∃ p ∈ program.code, p.isShortProduct = true)) ∧
    ∀ (v : View) (x : BlockCode), Redundancy.step v (Redundancy.run v x) = none ∧
      Sharing.step v (Sharing.run v x) = none ∧ DeadCode.step v (DeadCode.run v x.code) = none := by
  refine ⟨?_, fun v x =>
    ⟨Redundancy.step_run v x, Sharing.step_run v x, DeadCode.step_run v x.code⟩⟩
  obtain ⟨n, result, settled, converged⟩ := cycles_converge reserves (.start program)
  have same (limit : Nat) (large : n + 1 ≤ limit) :
      run { o with maxCycles := limit } program = result.map (State.finish o) := by
    rw [run_setMaxCycles o (by omega), settled limit limit (by omega) (by omega)]
  refine ⟨n + 1, result.map (State.finish o), same, ?_⟩
  cases result with
  | ok s =>
    refine Or.inl ⟨s.finish o, rfl, ?_⟩
    rw [State.notConverging_finish, converged s rfl]
  | error fault =>
    refine Or.inr ⟨⟨fault, rfl⟩, ?_⟩
    by_contra none
    have whole : Whole program.code := fun p member => by
      rw [← Bool.not_eq_true]
      exact fun short => none ⟨p, member, short⟩
    obtain ⟨final, ran⟩ := run_ok whole { o with maxCycles := n + 1 }
    cases ran.symm.trans (same (n + 1) (Nat.le_refl _))

/-- Around a loop, two registers are copied to each other, and one of them is read. -/
theorem converges_loop :
    let program : Program := ⟨[⟨1, .label "L", "", []⟩,
      .ofCommand 2 (.copy (.general 8) (.general 9)),
      .ofCommand 3 (.ofOpcode .jal [.sym "f"]),
      .ofCommand 4 (.copy (.general 9) (.general 8)),
      .ofCommand 5 (.ofOpcode .bne [.reg (.general 9), .reg Reg.zero, .sym "L"]),
      .ofCommand 6 (.ofOpcode .jr [.reg Reg.link])], 7⟩
    ∃ n final, (∀ limit, n ≤ limit → run { maxCycles := limit } program = .ok final) ∧
      final.notConverging = none := by
  intro program
  obtain ⟨n, result, same, ⟨final, rfl, converged⟩ | ⟨-, p, member, short⟩⟩ :=
    (converges (o := {}) (by decide) program).1
  · exact ⟨n, final, same, converged⟩
  · have whole : ∀ p ∈ program.code, p.isShortProduct = false := by decide
    rw [whole p member] at short
    contradiction

/-- A product without operands ends every run, so no limit is large enough. -/
theorem converges_never :
    let program : Program := ⟨[.ofCommand 1 (.ofOpcode .mult []),
      .ofCommand 2 (.ofOpcode .jr [.reg Reg.link])], 3⟩
    ¬ ∃ n, ∀ limit, n ≤ limit → ∃ final, run { maxCycles := limit } program = .ok final ∧
      final.notConverging = none := by
  rintro program ⟨n, converged⟩
  obtain ⟨final, ran, -⟩ := converged (n + 1) (Nat.le_succ n)
  have blocks : List.range ((State.start program).workspace {}).graph.size = [0] := by
    decide +kernel
  have faults :
      (round {} 0 (((State.start program).workspace {}).refresh {}) Pass.all).toOption.isNone =
        true := by decide +kernel
  rw [run_setMaxCycles {} (Nat.succ_pos n), cycles] at ran
  cases cycled : cycle {} (n + 1) (.start program) with
  | error fault =>
    rw [cycled] at ran
    cases ran
  | ok result =>
    obtain ⟨outcome, settles, -⟩ := cycle_eq_ok cycled
    rw [blocks] at settles
    obtain ⟨result, isRound⟩ := round_ok_of_settleBlocks settles
    rw [isRound] at faults
    cases faults

end Optimizer

end MipsFlow
