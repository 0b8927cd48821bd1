import MipsFlow.Proofs.RunDescent

/-!
# What reports no change has changed nothing

The optimizer goes on until its passes report no change. A pass that reports none leaves the
workspace as it was, to the notes and the next identity (`Workspace.eq_of_unchanged`), though
constant folding and copy propagation put instructions back in place before they know. So a round
that reports no change finds every pass quiet, and blocks that are settled without a change are
quiet under all passes (`Optimizer.settleBlocks_unchanged`); and blocks that are quiet are settled
at once, whatever the limit (`Optimizer.settleBlocks_of_quiet`).
-/

namespace MipsFlow

/-! ## Passes -/

namespace Jumps

variable {annotated : Bool} {next : Nat}

/-- Jumps that are reported to be simple already stay as they are. -/
theorem eq_of_unchanged {code : List Instr}
    (unchanged : (runFrom annotated next [] code).changed = false) :
    runFrom annotated next [] code = ⟨code, next, false⟩ := by
  induction code with
  | nil => rfl
  | cons p rest ih =>
    cases inverts : inverted? (p.annotate []) rest with
    | some c =>
      obtain ⟨q, after, -, -, -, -, rfl, -⟩ := inverted?_spec inverts
      rw [runFrom_of_inverts inverts] at unchanged
      cases unchanged
    | none =>
      cases skips : skipsNothing (p.annotate []) rest with
      | true =>
        rw [runFrom_of_skips inverts skips] at unchanged
        cases unchanged
      | false =>
        rw [runFrom_of_stays inverts skips] at unchanged ⊢
        rw [ih unchanged]
        rfl

end Jumps

namespace Folding

variable {v : View} {k : Known} {next : Nat} {p : Instr} {c : Command}

theorem fold_of_unchanged (unchanged : (fold v k next p c).changed = false) :
    fold v k next p c = ⟨p, next, false⟩ := by
  unfold fold at unchanged ⊢
  split
  · simp_all
  · split
    · simp only
      split <;> simp_all
    · rfl
  · rfl

/-- A block that constant folding goes through to the end without a change stays as it is. -/
theorem eq_of_unchanged {code : List Instr} (unchanged : (runFrom v k next code).changed = false)
    (done : (runFrom v k next code).fault = none) :
    (runFrom v k next code).block = ⟨code, next⟩ := by
  induction code generalizing k next with
  | nil => rfl
  | cons p rest ih =>
    rw [runFrom] at unchanged done ⊢
    cases command : p.command? with
    | none =>
      simp only [command] at unchanged done ⊢
      rw [ih unchanged done]
    | some c =>
      simp only [command] at unchanged done ⊢
      cases after : ((fold v k next p c).instr.command?.elim (.ok k) k.after :
        Except Fault Known) with
      | error fault =>
        rw [after] at done
        cases done
      | ok k' =>
        simp only [after] at unchanged done ⊢
        obtain ⟨here, later⟩ := Bool.or_eq_false_iff.1 unchanged
        have same := fold_of_unchanged here
        rw [same] at later done ⊢
        simp only [ih later done]

end Folding

namespace Propagation

variable {annotated : Bool} {f : Facts} {s : State} {c : Copy} {p : Instr}

/-- As long as no change is reported, the graph is as it was. -/
def Untouched (g : Graph) (s : State) : Prop :=
  s.changed = false → s.graph = g ∧ s.elsewhere = false

variable {g : Graph}

theorem Untouched.enter (untouched : Untouched g s) (source id : Nat) :
    Untouched g (enter annotated f source p c s id) := by
  rcases enter_cases annotated f source p c s id with same | ⟨b, note, -, entered⟩
  · rwa [same]
  · intro unchanged
    rw [entered] at unchanged
    cases unchanged

theorem Untouched.propagate (untouched : Untouched g s) (id i : Nat) :
    Untouched g (propagate annotated f id s i) := by
  rw [propagate_eq]
  cases departs : depart? annotated f id s i with
  | none => exact untouched
  | some d =>
    obtain ⟨b, here, -, -, isState, -⟩ := depart?_eq_some departs
    refine List.foldlRecOn (motive := Untouched g) d.onward _ ?_ fun _ entered next _ =>
      entered.enter id next
    rw [isState]
    intro unchanged
    obtain ⟨before, count⟩ := Bool.or_eq_false_iff.1 unchanged
    obtain ⟨same, elsewhere⟩ := untouched before
    have rereads := spread_rereads annotated d.copy ("copy propagated: " ++ d.instr.text)
      (b.code.drop (i + 1))
    refine ⟨?_, elsewhere⟩
    show s.graph.setCode id (b.code.take (i + 1) ++ _) = g
    rw [rereads.eq_of_count (by simpa using count), List.take_append_drop, Graph.setCode_self here,
      same]

/-- If no change is reported, the graph is as it was. -/
theorem eq_of_unchanged {id : Nat} (unchanged : (run annotated f g id).changed = false) :
    (run annotated f g id).graph = g ∧ (run annotated f g id).elsewhere = false := by
  have untouched : Untouched g (run annotated f g id) := by
    unfold run
    split
    · exact fun _ => ⟨rfl, rfl⟩
    · next b _ =>
      exact List.foldlRecOn (motive := Untouched g) (List.range b.code.length) _
        (fun _ => ⟨rfl, rfl⟩) fun _ propagated i _ => propagated.propagate id i
  exact untouched unchanged

end Propagation

/-! ## Blocks -/

namespace Workspace

variable {o : Options} {w w' : Workspace} {b : Block} {pass : Pass}

theorem store_self (here : w.graph.block? b.id = some b) : w.store b.id ⟨b.code, w.nextId⟩ = w := by
  unfold store
  rw [Graph.setCode_self here]

/-- A pass that reports no change has changed nothing. -/
theorem eq_of_unchanged (here : w.graph.block? b.id = some b)
    (unchanged : pass.apply o w b = (w', .ok false)) : w' = w := by
  let v := w.facts.view o.annotated b
  let block : BlockCode := ⟨b.code, w.nextId⟩
  cases pass with
  | redundancy =>
    obtain ⟨rfl, idle⟩ := Prod.mk.inj unchanged
    have same : Redundancy.run v block = block := exhaust_of_done (Except.ok.inj idle) _
    exact (congrArg (w.store b.id) same).trans (store_self here)
  | sharing =>
    obtain ⟨rfl, idle⟩ := Prod.mk.inj unchanged
    have same : Sharing.run v block = block := exhaust_of_done (Except.ok.inj idle) _
    exact (congrArg (w.store b.id) same).trans (store_self here)
  | folding =>
    obtain ⟨rfl, idle⟩ := Prod.mk.inj unchanged
    cases fault : (Folding.run v block).fault with
    | some _ =>
      simp only [v, block] at fault
      rw [fault] at idle
      cases idle
    | none =>
      have same : (Folding.run v block).block = block := by
        refine Folding.eq_of_unchanged ?_ fault
        simp only [v, block] at fault
        rw [fault] at idle
        exact Except.ok.inj idle
      exact (congrArg (w.store b.id) same).trans (store_self here)
  | propagation =>
    obtain ⟨rfl, idle⟩ := Prod.mk.inj unchanged
    obtain ⟨graph, elsewhere⟩ := Propagation.eq_of_unchanged (Except.ok.inj idle)
    simp only [graph, elsewhere, Bool.or_false]
  | deadCode =>
    obtain ⟨rfl, idle⟩ := Prod.mk.inj unchanged
    have same : DeadCode.run v b.code = b.code := exhaust_of_done (Except.ok.inj idle) _
    exact (congrArg (fun code => w.store b.id ⟨code, w.nextId⟩) same).trans (store_self here)

/-- Every pass reports that there is nothing to do for the block with the given place. -/
def Quiet (o : Options) (w : Workspace) (id : Nat) : Prop :=
  ∀ b, w.graph.block? id = some b → ∀ pass : Pass, (pass.apply o w b).2 = .ok false

/-- The work that has been done so far plays no part. -/
theorem Quiet.congr_tally {id : Nat} (quiet : Quiet o w id) (t : Tally) :
    Quiet o { w with tally := t } id := by
  intro b here pass
  have same : (pass.apply o { w with tally := t } b).2 = (pass.apply o w b).2 := by
    cases pass <;> rfl
  exact same.trans (quiet b here pass)

end Workspace

namespace Optimizer

open Workspace

variable {o : Options} {w w' : Workspace} {id limit : Nat} {changed : Bool}

/-! ## Quiet blocks are settled -/

theorem applyAt_of_quiet (placed : Graph.Placed w.graph.blocks) (current : w.stale = false)
    (quiet : Quiet o w id) (pass : Pass) : applyAt o id w pass = .ok (w, false) := by
  unfold applyAt
  cases here : w.graph.block? id with
  | none => rfl
  | some b =>
    have place : b.id = id := placed id b here
    obtain ⟨w', isApplied⟩ : ∃ w', pass.apply o w b = (w', .ok false) :=
      ⟨_, Prod.ext rfl (quiet b here pass)⟩
    obtain rfl := eq_of_unchanged (place ▸ here) isApplied
    simp only [isApplied, Bool.false_eq_true, if_false, refresh_of_current current]

theorem round_of_quiet (placed : Graph.Placed w.graph.blocks) (current : w.stale = false)
    (quiet : Quiet o w id) (passes : List Pass) : round o id w passes = .ok (w, false) := by
  induction passes with
  | nil => rfl
  | cons pass passes ih =>
    rw [round, applyAt_of_quiet placed current quiet]
    simp only [bind, Except.bind, ih, pure, Except.pure, Bool.or_self]

/-- Quiet blocks are settled in one round each, whatever the limit, and nothing changes. -/
theorem settleBlocks_of_quiet (placed : Graph.Placed w.graph.blocks) (current : w.stale = false)
    (limit : Nat) {ids : List Nat} (quiet : ∀ id ∈ ids, Quiet o w id) :
    settleBlocks o (limit + 1) ids w = .ok ⟨w, false, true⟩ := by
  induction ids with
  | nil => rfl
  | cons id ids ih =>
    obtain ⟨here, later⟩ := List.forall_mem_cons.1 quiet
    rw [settleBlocks, refresh_of_current current, settleBlock,
      round_of_quiet placed current here]
    simp only [bind, Except.bind, pure, Except.pure, Bool.false_eq_true, if_false, Bool.not_true,
      ih later, Bool.or_self]

/-! ## Blocks that are settled without a change are quiet -/

theorem applyAt_unchanged (placed : Graph.Placed w.graph.blocks) (current : w.stale = false)
    {pass : Pass} (applied : applyAt o id w pass = .ok (w', false)) :
    w' = w ∧ ∀ b, w.graph.block? id = some b → (pass.apply o w b).2 = .ok false := by
  rcases applyAt_eq_ok applied with ⟨absent, rfl, -⟩ | ⟨b, w₁, here, isApplied, rfl⟩
  · refine ⟨rfl, fun b here => ?_⟩
    rw [absent] at here
    contradiction
  · have place : b.id = id := placed id b here
    obtain rfl := eq_of_unchanged (place ▸ here) isApplied
    refine ⟨?_, fun c isBlock => ?_⟩
    · rw [if_neg Bool.false_ne_true, refresh_of_current current]
    · cases here.symm.trans isBlock
      rw [isApplied]

theorem round_unchanged (placed : Graph.Placed w.graph.blocks) (current : w.stale = false)
    {passes : List Pass} (rounds : round o id w passes = .ok (w', false)) :
    w' = w ∧ ∀ pass ∈ passes, ∀ b, w.graph.block? id = some b →
      (pass.apply o w b).2 = .ok false := by
  induction passes with
  | nil =>
    cases rounds
    exact ⟨rfl, fun pass none => absurd none List.not_mem_nil⟩
  | cons pass passes ih =>
    obtain ⟨w₁, first, others, applied, later, none⟩ := round_cons_eq_ok rounds
    obtain ⟨rfl, rfl⟩ := Bool.or_eq_false_iff.1 none.symm
    obtain ⟨rfl, here⟩ := applyAt_unchanged placed current applied
    obtain ⟨same, rest⟩ := ih later
    exact ⟨same, List.forall_mem_cons.2 ⟨here, rest⟩⟩

theorem Pass.mem_all (pass : Pass) : pass ∈ Pass.all := by
  cases pass <;> decide

/-- What a block has changed is not forgotten. -/
theorem changed_settleBlock {outcome : BlockOutcome}
    (settles : settleBlock o id limit w true = .ok outcome) : outcome.changed = true := by
  induction limit generalizing w with
  | zero =>
    cases settles
    rfl
  | succ limit ih =>
    obtain ⟨w₁, more, -, ⟨-, rfl⟩ | ⟨-, settles⟩⟩ := settleBlock_succ_eq_ok settles
    · rfl
    · exact ih settles

theorem settleBlock_unchanged (placed : Graph.Placed w.graph.blocks) (current : w.stale = false)
    {outcome : BlockOutcome} (settles : settleBlock o id limit w false = .ok outcome)
    (stable : outcome.stable = true) (unchanged : outcome.changed = false) :
    outcome.workspace = w ∧ Quiet o w id := by
  cases limit with
  | zero =>
    cases settles
    cases stable
  | succ limit =>
    obtain ⟨w', more, rounds, ⟨rfl, rfl⟩ | ⟨-, settles⟩⟩ := settleBlock_succ_eq_ok settles
    · obtain ⟨same, quiet⟩ := round_unchanged placed current rounds
      exact ⟨same, fun b here pass => quiet pass (Pass.mem_all pass) b here⟩
    · rw [changed_settleBlock settles] at unchanged
      contradiction

/-- If blocks are settled without a change, they are quiet, and the workspace is as it was. -/
theorem settleBlocks_unchanged (placed : Graph.Placed w.graph.blocks) (current : w.stale = false)
    {ids : List Nat} {outcome : BlockOutcome} (settles : settleBlocks o limit ids w = .ok outcome)
    (stable : outcome.stable = true) (unchanged : outcome.changed = false) :
    outcome.workspace = w ∧ ∀ id ∈ ids, Quiet o w id := by
  induction ids generalizing outcome with
  | nil =>
    cases settles
    exact ⟨rfl, fun id none => absurd none List.not_mem_nil⟩
  | cons id ids ih =>
    obtain ⟨first, settlesFirst, ends⟩ := settleBlocks_cons_eq_ok settles
    rw [refresh_of_current current] at settlesFirst
    rcases ends with ⟨unstable, rfl⟩ | ⟨isStable, others, settlesOthers, rfl⟩
    · rw [unstable] at stable
      contradiction
    · obtain ⟨isFirst, isOthers⟩ := Bool.or_eq_false_iff.1 unchanged
      obtain ⟨same, quiet⟩ := settleBlock_unchanged placed current settlesFirst isStable isFirst
      rw [if_neg (Bool.eq_false_iff.1 isFirst), same] at settlesOthers
      obtain ⟨same', rest⟩ := ih settlesOthers stable isOthers
      exact ⟨same', List.forall_mem_cons.2 ⟨quiet, rest⟩⟩

end Optimizer

end MipsFlow
