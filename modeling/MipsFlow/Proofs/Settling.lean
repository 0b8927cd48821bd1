import MipsFlow.Proofs.AgreeingRuns
import MipsFlow.Proofs.DeadCodePass
import MipsFlow.Proofs.FoldingPass
import MipsFlow.Proofs.PropagationPass
import MipsFlow.Proofs.RedundancyPass
import MipsFlow.Proofs.Rounds
import MipsFlow.Proofs.SharingPass

/-!
# Settling the blocks of a workspace

The facts of a workspace are not computed again after every change, so what they still promise is
part of the invariant. A workspace is `Ready` if the facts about live registers are right for its
graph, and those about copies for all blocks but some. Work on a block may outdate what is said of
copies behind that block, and nothing else: the passes need no more (`apply_worked`), and leave no
less once stale facts have been computed again.

`Advances` is what has become of the graph: recoded, with a program that ends alike. It is shown for
a pass, and with the invariant outlasts the work on all blocks (`settleBlocks_advances`). No pass
faults on code that the machine runs.
-/

namespace MipsFlow

/-- At the moment redundancy elimination is about to be applied, and exchanges this window. -/
def Optimizer.Moment.Meets (o : Options) (m : Moment) (window repl : List Instr) : Prop :=
  m.pass = .redundancy ∧ ∃ b, m.workspace.graph.block? m.id = some b ∧
    Redundancy.Meets (m.workspace.facts.view o.annotated b) ⟨b.code, m.workspace.nextId⟩ window repl

/-! ## The invariant -/

/-- The workspace may be worked on. What the facts say of copies may be out of date for some
blocks. -/
structure Workspace.Ready (o : Options) (places : String → Option Nat) (outdated : Nat → Prop)
    (w : Workspace) : Prop where
  wired : w.graph.Wired places
  nonempty : 0 < w.graph.size
  reserved : w.facts.reserved = .ofList o.reserved
  current : w.stale = false
  live : w.facts.LiveSound w.graph o.reserved
  copies : w.facts.CopiesSound w.graph outdated

/-- The second graph is the first one recoded, and their programs end alike. -/
structure Graph.Advances (o : Options) (g g' : Graph) : Prop where
  recoded : g.Recoded g'
  alike : Machine.EndAlike (Liveness.atExit o.reserved) g.flatten g'.flatten

/-- What work on the block `id` makes of a workspace. -/
structure Workspace.Worked (o : Options) (places : String → Option Nat) (id : Nat)
    (w w' : Workspace) (changed : Bool) : Prop where
  advances : w.graph.Advances o w'.graph
  outlasts : Outlasts (Ready o places) id w w' changed

namespace Graph.Advances

variable {o : Options} {g g' g'' : Graph}

theorem refl (runs : g.Runs) : g.Advances o g := ⟨.refl runs, .refl _⟩

theorem trans (first : g.Advances o g') (second : g'.Advances o g'') : g.Advances o g'' :=
  ⟨first.recoded.trans second.recoded, first.alike.trans second.alike⟩

end Graph.Advances

/-- Facts about copies keep their promise if only blocks change for which they are out of date. -/
theorem Facts.CopiesSound.recode {f : Facts} {g g' : Graph} {outdated : Nat → Prop}
    (sound : f.CopiesSound g outdated) (shape : g.SameShape g')
    (others : ∀ id, ¬ outdated id → g'.block? id = g.block? id) : f.CopiesSound g' outdated := by
  refine ⟨?_, ?_, ?_⟩
  · intro id b c there comesIn
    obtain ⟨code, here⟩ := shape.symm.block? there
    exact sound.start here comesIn
  · intro id next b c there edge
    obtain ⟨code, here⟩ := shape.symm.block? there
    exact sound.edge here edge
  · intro id b c there fresh
    exact sound.block ((others id fresh).symm.trans there) fresh

namespace Workspace

variable {o : Options} {places : String → Option Nat} {outdated : Nat → Prop} {w : Workspace}
variable {id : Nat} {b : Block}

theorem Ready.congr {w' : Workspace} (ready : w.Ready o places outdated)
    (graph : w'.graph = w.graph) (facts : w'.facts = w.facts) (current : w'.stale = false) :
    w'.Ready o places outdated := by
  obtain ⟨wired, nonempty, reserved, -, live, copies⟩ := ready
  rw [← graph] at wired nonempty live copies
  rw [← facts] at reserved live copies
  exact ⟨wired, nonempty, reserved, current, live, copies⟩

/-- Facts that are computed again are right. -/
theorem ready_of_stale (wired : w.graph.Wired places) (nonempty : 0 < w.graph.size)
    (stale : w.stale = true) : (w.refresh o).Ready o places outdated := by
  have graph := refresh_graph o w
  have facts : (w.refresh o).facts = Facts.analyze w.graph o.reserved := refresh_facts stale
  refine ⟨graph ▸ wired, graph ▸ nonempty, by rw [facts]; rfl, refresh_stale o w, ?_, ?_⟩
  all_goals rw [facts, graph]
  · exact analyze_liveSound wired.regular
  · exact (analyze_copiesSound wired.regular).mono fun _ never => never.elim

/-! ## Passes -/

theorem exhaust_of_done {α : Type} {step : α → Option α} {a : α} (done : (step a).isSome = false)
    (fuel : Nat) : exhaust step fuel a = a := by
  cases fuel with
  | zero => rfl
  | succ fuel =>
    rw [exhaust]
    cases next : step a with
    | none => rfl
    | some c => simp [next] at done

/-- A pass that stores new code for the block. -/
theorem store_worked {block : BlockCode} {changed : Bool} (ready : w.Ready o places (· = id))
    (here : w.graph.block? id = some b)
    (refits : Refits (w.facts.view o.annotated b) b.code block.code)
    (same : changed = false → block.code = b.code) :
    Worked o places id w ((w.store b.id block).refresh o) changed := by
  have place := ready.wired.regular.place here
  obtain ⟨improves, reworked, runs⟩ := refits (ready.wired.runs here)
  have improved : Graph.Improved (Machine.meaning places) w.facts w.graph
      (w.graph.setCode id block.code) := by
    refine .setCode here ?_
    have liveOut : (w.facts.view o.annotated b).liveOut = w.facts.live.exitOf id := by
      rw [← place]
      rfl
    rw [← liveOut]
    exact improves places
  have recoded : w.graph.Recoded (w.graph.setCode id block.code) :=
    .setCode ready.wired.runs here reworked runs
  have wired := recoded.wired ready.wired
  have stays : (w.store b.id block).refresh o = w.store b.id block :=
    refresh_of_current ready.current
  have isGraph : (w.store b.id block).graph = w.graph.setCode id block.code := by
    rw [← place]
    rfl
  rw [stays]
  refine ⟨⟨isGraph ▸ recoded, ?_⟩, ⟨isGraph ▸ wired, ?_, ready.reserved, ready.current, ?_, ?_⟩,
    fun unchanged outdated before => before.congr ?_ rfl ready.current⟩
  · rw [isGraph]
    exact improved.endAlike ready.wired wired ready.live ready.nonempty
  · rw [isGraph, recoded.shape.size_eq]
    exact ready.nonempty
  · rw [isGraph]
    exact improved.liveSound ready.wired.toLaid ready.live
  · rw [isGraph]
    refine ready.copies.recode recoded.shape fun other isOther => ?_
    exact Graph.block?_setCode_of_ne isOther
  · rw [isGraph, same unchanged, Graph.setCode_self here]

/-- Propagation of copies, which may reach into other blocks. -/
theorem propagation_worked (ready : w.Ready o places (· = id))
    (reserves : ∀ r ∈ Reg.alwaysReserved, r ∈ o.reserved) (here : w.graph.block? id = some b) :
    let st := Propagation.run o.annotated w.facts w.graph id
    let w' : Workspace := { w with graph := st.graph, stale := w.stale || st.elsewhere }
    Worked o places id w (w'.refresh o) st.changed := by
  intro st w'
  have reserves' : ∀ r ∈ Reg.alwaysReserved, r ∈ w.facts.reserved :=
    reserves_of_reserved ready.reserved reserves
  have separate : w.graph.IsSeparate := by
    intro other c isBlock p member
    unfold Instr.isSeparate
    cases command : p.command? with
    | none => rfl
    | some d => exact (ready.wired.runs isBlock p member d command).known.2.2
  have tracks : Propagation.Tracks w.facts w.graph id st :=
    .run o.annotated separate reserves' id
  have recoded := tracks.recoded reserves' ready.wired.runs
  have wired := recoded.wired ready.wired
  have nonempty : 0 < st.graph.size := by
    rw [tracks.shape.size_eq]
    exact ready.nonempty
  obtain ⟨first, isFirst⟩ := Graph.block?_of_lt_size ready.nonempty
  have grounds : Propagation.Grounds (Machine.meaning places) w.facts w.graph id 0 :=
    ⟨fun _ _ => rfl, reserves' Reg.zero (by decide), ready.wired.regular, ready.copies, first,
      isFirst, Or.inl rfl⟩
  have follows : ∀ s, Follows (Machine.meaning places) 0 s w.graph st.graph := fun s =>
    (Propagation.Keeps.run o.annotated grounds separate s).follows
  have advances : w.graph.Advances o st.graph :=
    ⟨recoded, Follows.endAlike follows ready.wired wired ready.nonempty⟩
  have isStale : w'.stale = st.elsewhere := by
    show (w.stale || st.elsewhere) = st.elsewhere
    rw [ready.current, Bool.false_or]
  cases elsewhere : st.elsewhere with
  | true =>
    have renewed : ∀ outdated, (w'.refresh o).Ready o places outdated := fun _ =>
      ready_of_stale wired nonempty (isStale.trans elsewhere)
    refine ⟨?_, renewed _, fun _ _ _ => renewed _⟩
    rw [refresh_graph]
    exact advances
  | false =>
    have current : w'.stale = false := isStale.trans elsewhere
    obtain ⟨others, fewer⟩ := tracks.live elsewhere
    rw [refresh_of_current current]
    refine ⟨advances, ⟨wired, nonempty, ready.reserved, current, ?_, ?_⟩,
      fun unchanged outdated before => before.congr (tracks.same unchanged) rfl current⟩
    · refine ready.live.recode tracks.shape ?_
      intro other c c' isOld isNew r live
      by_cases isHere : other = id
      · subst isHere
        exact fewer isOld isNew (ready.wired.last isOld) live
      · rw [others other isHere, isOld] at isNew
        cases isNew
        exact live
    · exact ready.copies.recode tracks.shape others

/-- Every pass works on the block without a fault. -/
theorem apply_worked (ready : w.Ready o places (· = id))
    (reserves : ∀ r ∈ Reg.alwaysReserved, r ∈ o.reserved) (here : w.graph.block? id = some b)
    (pass : Pass) : ∃ w' changed, pass.apply o w b = (w', .ok changed) ∧
      Worked o places id w (w'.refresh o) changed := by
  let v := w.facts.view o.annotated b
  let block : BlockCode := ⟨b.code, w.nextId⟩
  have sees : v.unresolved = false := ready.wired.resolved here
  have zero : Reg.zero ∈ v.reserved :=
    reserves_of_reserved ready.reserved reserves Reg.zero (by decide)
  cases pass with
  | redundancy =>
    have refits := Redundancy.redundancy_refits zero sees block
    refine ⟨_, _, rfl, store_worked ready here refits fun unchanged => ?_⟩
    exact congrArg BlockCode.code (exhaust_of_done unchanged _)
  | sharing =>
    have refits := Sharing.sharing_refits (v := v) block
    refine ⟨_, _, rfl, store_worked ready here refits fun unchanged => ?_⟩
    exact congrArg BlockCode.code (exhaust_of_done unchanged _)
  | folding =>
    have runs : ∀ p ∈ block.code, Machine.Runs p := ready.wired.runs here
    obtain ⟨refits, fault, same⟩ := Folding.folding_refits (v := v) runs
    exact ⟨_, _, Folding.apply_folding fault, store_worked ready here refits same⟩
  | propagation =>
    refine ⟨_, _, rfl, ?_⟩
    rw [ready.wired.regular.place here]
    exact propagation_worked ready reserves here
  | deadCode =>
    have refits := DeadCode.deadCode_refits sees b.code
    exact ⟨_, _, rfl, store_worked ready here refits fun unchanged => exhaust_of_done unchanged _⟩

/-- That the workspace may be worked on, and that its graph has come from a given one, outlasts the
work on all blocks. -/
theorem ready_lasting (places : String → Option Nat)
    (reserves : ∀ r ∈ Reg.alwaysReserved, r ∈ o.reserved) (g : Graph) :
    Lasting o (fun _ => True) fun outdated w =>
      w.Ready o places outdated ∧ g.Advances o w.graph where
  current := fun ⟨ready, _⟩ => ready.current
  congr := fun ⟨ready, advances⟩ graph facts current =>
    ⟨ready.congr graph facts current, graph ▸ advances⟩
  mono := fun ⟨ready, advances⟩ fewer =>
    ⟨{ ready with copies := ready.copies.mono fewer }, advances⟩
  renew := by
    rintro _ outdated w ⟨ready, advances⟩
    refine ⟨ready_of_stale ready.wired ready.nonempty rfl, ?_⟩
    rw [refresh_graph]
    exact advances
  apply := by
    rintro id w w' b pass changed - ⟨ready, advances⟩ here applied
    obtain ⟨_, _, isApplied, worked⟩ := apply_worked ready reserves here pass
    cases isApplied.symm.trans applied
    have onward := advances.trans worked.advances
    exact ⟨⟨worked.outlasts.holds, onward⟩, fun unchanged outdated before =>
      ⟨worked.outlasts.same unchanged outdated before.1, onward⟩⟩

end Workspace

namespace Optimizer

open Workspace

/-- Settling some blocks advances the graph. -/
theorem settleBlocks_advances {o : Options} {places : String → Option Nat} {w : Workspace}
    (ready : (w.refresh o).Ready o places fun _ => False)
    (reserves : ∀ r ∈ Reg.alwaysReserved, r ∈ o.reserved) (limit : Nat) (ids : List Nat) :
    ∃ outcome, settleBlocks o limit ids w = .ok outcome ∧
      w.graph.Advances o outcome.workspace.graph := by
  have lasting := ready_lasting places reserves w.graph
  have start : w.graph.Advances o (w.refresh o).graph := by
    rw [refresh_graph]
    exact .refl (refresh_graph o w ▸ ready.wired.runs)
  obtain ⟨outcome, settles⟩ := settleBlocks_ok lasting
    (fun pass ⟨ready, _⟩ here =>
      let ⟨w', changed, applied, _⟩ := apply_worked ready reserves here pass
      ⟨w', changed, applied⟩)
    ⟨ready, start⟩ limit ids
  obtain ⟨outdated, -, advances⟩ := settleBlocks_holds lasting ⟨ready, start⟩
    (fun _ _ => trivial) settles
  rw [refresh_graph] at advances
  exact ⟨outcome, settles, advances⟩

end Optimizer

end MipsFlow
