import MipsFlow.Optimizer

/-!
# Conditions that outlast the work on a graph

The optimizer applies passes to a block in rounds, and goes on to the next block when nothing
changes any more. A `Moment` is a pass that is about to be applied to a block. What holds of the
workspace all the way is shown here once, for any condition that is `Lasting`. A condition may leave
out some blocks for which the facts are out of date: while a block is being worked on, this block,
and none when the next one is taken up. It may also rest on something that is known of the moments
of the run at hand.

* `moments_hold`: the condition holds at every moment.
* `settleBlocks_holds`: it holds when the blocks are settled.
* `settleBlocks_ok`: if no pass faults where it holds, the blocks are settled without a fault.

A relation that every pass keeps relates the first workspace to the last one
(`settleBlocks_related`), and both to those in between (`graphMoments_related`).
-/

namespace MipsFlow

namespace Optimizer

/-! ## Moments -/

/-- A pass is about to be applied to a block of a workspace. -/
structure Moment where
  id : Nat
  pass : Pass
  workspace : Workspace

/-- The moments of a round over a block. -/
def roundMoments (o : Options) (id : Nat) (w : Workspace) : List Pass → List Moment
  | [] => []
  | pass :: passes =>
    ⟨id, pass, w⟩ :: match applyAt o id w pass with
      | .error _ => []
      | .ok (w, _) => roundMoments o id w passes

/-- The moments of the rounds over a block. -/
def blockMoments (o : Options) (id : Nat) : Nat → Workspace → List Moment
  | 0, _ => []
  | limit + 1, w =>
    roundMoments o id w Pass.all ++ match round o id w Pass.all with
      | .error _ => []
      | .ok (w, more) => if more then blockMoments o id limit w else []

/-- The moments while some blocks are settled in order. -/
def graphMoments (o : Options) (limit : Nat) : List Nat → Workspace → List Moment
  | [], _ => []
  | id :: ids, w =>
    blockMoments o id limit (w.refresh o) ++
      match settleBlock o id limit (w.refresh o) false with
      | .error _ => []
      | .ok first =>
        if !first.stable then []
        else graphMoments o limit ids
          (if first.changed then first.workspace.invalidate else first.workspace)

end Optimizer

namespace Workspace

open Optimizer (Moment)

variable {o : Options} {K : Moment → Prop} {I : (Nat → Prop) → Workspace → Prop} {id : Nat}
variable {w w' : Workspace}

/-- The facts reserve what the options reserve. -/
theorem reserves_of_reserved (reserved : w.facts.reserved = .ofList o.reserved) {rs : List Reg}
    (reserves : ∀ r ∈ rs, r ∈ o.reserved) : ∀ r ∈ rs, r ∈ w.facts.reserved := by
  rw [reserved]
  exact fun r member => FactSet.mem_ofList.2 (reserves r member)

theorem refresh_graph (o : Options) (w : Workspace) : (w.refresh o).graph = w.graph := by
  unfold refresh
  split <;> rfl

theorem refresh_nextId (o : Options) (w : Workspace) : (w.refresh o).nextId = w.nextId := by
  unfold refresh
  split <;> rfl

theorem refresh_stale (o : Options) (w : Workspace) : (w.refresh o).stale = false := by
  unfold refresh
  cases current : w.stale with
  | true => rfl
  | false => exact current

theorem refresh_facts (stale : w.stale = true) :
    (w.refresh o).facts = Facts.analyze w.graph o.reserved := by
  unfold refresh
  rw [stale]
  rfl

theorem refresh_of_current (current : w.stale = false) : w.refresh o = w := by
  unfold refresh
  rw [current]
  rfl

/-- The condition holds behind work on the block `id`. If nothing has changed, it holds for no fewer
blocks than before. -/
structure Outlasts (I : (Nat → Prop) → Workspace → Prop) (id : Nat) (w w' : Workspace)
    (changed : Bool) : Prop where
  holds : I (· = id) w'
  same : changed = false → ∀ outdated, I outdated w → I outdated w'

theorem Outlasts.refl (holds : I (· = id) w) : Outlasts I id w w false :=
  ⟨holds, fun _ _ before => before⟩

theorem Outlasts.trans {w'' : Workspace} {changed changed' : Bool}
    (first : Outlasts I id w w' changed) (second : Outlasts I id w' w'' changed') :
    Outlasts I id w w'' (changed || changed') := by
  refine ⟨second.holds, fun unchanged outdated before => ?_⟩
  obtain ⟨same, same'⟩ := Bool.or_eq_false_iff.1 unchanged
  exact second.same same' outdated (first.same same outdated before)

/-- A condition on the graph and the facts of a workspace, with some blocks left out. At moments of
the given kind every pass keeps it but for the block that is worked on, and new facts restore it for
this block. -/
structure Lasting (o : Options) (K : Moment → Prop) (I : (Nat → Prop) → Workspace → Prop) :
    Prop where
  current : ∀ {outdated w}, I outdated w → w.stale = false
  congr : ∀ {outdated w w'}, I outdated w → w'.graph = w.graph → w'.facts = w.facts →
    w'.stale = false → I outdated w'
  mono : ∀ {outdated outdated' w}, I outdated w → (∀ id, outdated id → outdated' id) →
    I outdated' w
  renew : ∀ {outdated outdated' w}, I outdated w → I outdated' (w.invalidate.refresh o)
  apply : ∀ {id w w' b pass changed}, K ⟨id, pass, w⟩ → I (· = id) w →
    w.graph.block? id = some b → Pass.apply o pass w b = (w', .ok changed) →
    Outlasts I id w (w'.refresh o) changed

/-- A condition on the graph alone outlasts the work if every pass keeps it where another lasting
condition holds. It may say what kind of moment it is. -/
theorem Lasting.and_graph {L : Moment → Prop} (lasting : Lasting o K I) {R : Graph → Prop}
    (kind : ∀ {m : Moment}, L m → I (· = m.id) m.workspace → R m.workspace.graph → K m)
    (apply : ∀ {id w w' b pass changed}, I (· = id) w → R w.graph → w.graph.block? id = some b →
      Pass.apply o pass w b = (w', .ok changed) → R w'.graph) :
    Lasting o L fun outdated w => I outdated w ∧ R w.graph where
  current := fun ⟨holds, _⟩ => lasting.current holds
  congr := fun ⟨holds, related⟩ graph facts current =>
    ⟨lasting.congr holds graph facts current, graph ▸ related⟩
  mono := fun ⟨holds, related⟩ fewer => ⟨lasting.mono holds fewer, related⟩
  renew := fun ⟨holds, related⟩ => ⟨lasting.renew holds, (refresh_graph ..).symm ▸ related⟩
  apply := fun isKind ⟨holds, related⟩ here applied =>
    have outlasts := lasting.apply (kind isKind holds related) holds here applied
    have kept := (refresh_graph ..).symm ▸ apply holds related here applied
    ⟨⟨outlasts.holds, kept⟩, fun unchanged outdated before =>
      ⟨outlasts.same unchanged outdated before.1, kept⟩⟩

/-- The counters play no part. -/
theorem Lasting.tally (lasting : Lasting o K I) {outdated : Nat → Prop}
    (holds : I outdated (w.refresh o)) (t : Tally) :
    I outdated (Workspace.refresh o { w with tally := t }) := by
  refine lasting.congr holds ?_ ?_ ?_
  all_goals
    unfold refresh
    cases w.stale <;> rfl

end Workspace

namespace Optimizer

open Workspace

/-! ## What has happened where no pass has faulted -/

theorem ok_of_toOption {ε α : Type} {e : Except ε α} {a : α} (isOk : e.toOption = some a) :
    e = .ok a := by
  cases e with
  | error _ => contradiction
  | ok _ => exact congrArg Except.ok (Option.some.inj isOk)

section Outcomes

variable {o : Options} {id limit : Nat} {ids : List Nat} {w w' : Workspace} {changed : Bool}
variable {pass : Pass} {passes : List Pass} {outcome : BlockOutcome}

/-- A pass has been applied to the block, if there is one. -/
theorem applyAt_eq_ok (applied : applyAt o id w pass = .ok (w', changed)) :
    (w.graph.block? id = none ∧ w' = w ∧ changed = false) ∨
      ∃ b w₁, w.graph.block? id = some b ∧ pass.apply o w b = (w₁, .ok changed) ∧
        w' = Workspace.refresh o
          (if changed then { w₁ with tally.changes := w₁.tally.changes + 1 } else w₁) := by
  unfold applyAt at applied
  split at applied
  · next absent =>
    cases applied
    exact Or.inl ⟨absent, rfl, rfl⟩
  · next b here =>
    split at applied
    · cases applied
    · next w₁ more isApplied =>
      obtain ⟨rfl, rfl⟩ := Prod.mk.inj (Except.ok.inj applied)
      exact Or.inr ⟨b, w₁, here, isApplied, rfl⟩

theorem round_cons_eq_ok (rounds : round o id w (pass :: passes) = .ok (w', changed)) :
    ∃ w₁ first others, applyAt o id w pass = .ok (w₁, first) ∧
      round o id w₁ passes = .ok (w', others) ∧ changed = (first || others) := by
  simp only [round, bind, Except.bind] at rounds
  split at rounds
  · cases rounds
  · next first applied =>
    split at rounds
    · cases rounds
    · next others later =>
      cases rounds
      exact ⟨first.1, first.2, others.2, applied, later, rfl⟩

/-- The block is settled if a round has not changed it, and goes on being settled if it has. -/
theorem settleBlock_succ_eq_ok
    (settles : settleBlock o id (limit + 1) w changed = .ok outcome) :
    ∃ w₁ more, round o id w Pass.all = .ok (w₁, more) ∧
      ((more = false ∧ outcome = ⟨w₁, changed, true⟩) ∨
        (more = true ∧ settleBlock o id limit w₁ true = .ok outcome)) := by
  simp only [settleBlock, bind, Except.bind] at settles
  split at settles
  · cases settles
  · next result rounds =>
    obtain ⟨w₁, more⟩ := result
    refine ⟨w₁, more, rounds, ?_⟩
    cases more with
    | false =>
      cases settles
      exact Or.inl ⟨rfl, rfl⟩
    | true => exact Or.inr ⟨rfl, settles⟩

/-- The next blocks have been settled if the first one has. -/
theorem settleBlocks_cons_eq_ok (settles : settleBlocks o limit (id :: ids) w = .ok outcome) :
    ∃ first, settleBlock o id limit (w.refresh o) false = .ok first ∧
      ((first.stable = false ∧ outcome = { first with changed := false }) ∨
        (first.stable = true ∧ ∃ others,
          settleBlocks o limit ids
            (if first.changed then first.workspace.invalidate else first.workspace) = .ok others ∧
          outcome = { others with changed := first.changed || others.changed })) := by
  simp only [settleBlocks, bind, Except.bind, pure, Except.pure] at settles
  split at settles
  · cases settles
  · next first settlesFirst =>
    refine ⟨first, settlesFirst, ?_⟩
    cases stable : first.stable with
    | false =>
      simp only [stable, Bool.not_false, if_true] at settles
      cases settles
      exact Or.inl ⟨rfl, rfl⟩
    | true =>
      simp only [stable, Bool.not_true, Bool.false_eq_true, if_false] at settles
      split at settles
      · cases settles
      · next others settlesOthers =>
        cases settles
        exact Or.inr ⟨rfl, others, settlesOthers, rfl⟩

/-- The moments go on behind a pass that has been applied. -/
theorem roundMoments_cons (applied : applyAt o id w pass = .ok (w', changed)) :
    roundMoments o id w (pass :: passes) = ⟨id, pass, w⟩ :: roundMoments o id w' passes := by
  rw [roundMoments, applied]

theorem blockMoments_succ (rounds : round o id w Pass.all = .ok (w', changed)) :
    blockMoments o id (limit + 1) w = roundMoments o id w Pass.all ++
      if changed then blockMoments o id limit w' else [] := by
  rw [blockMoments, rounds]

theorem graphMoments_cons (settles : settleBlock o id limit (w.refresh o) false = .ok outcome) :
    graphMoments o limit (id :: ids) w = blockMoments o id limit (w.refresh o) ++
      if !outcome.stable then []
      else graphMoments o limit ids
        (if outcome.changed then outcome.workspace.invalidate else outcome.workspace) := by
  rw [graphMoments, settles]

end Outcomes

/-! ## One block -/

section Block

variable {o : Options} {K : Moment → Prop} {I : (Nat → Prop) → Workspace → Prop} {id : Nat}
variable {w w' : Workspace} {changed : Bool}

theorem applyAt_outlasts (lasting : Lasting o K I) (holds : I (· = id) w) {pass : Pass}
    (isKind : K ⟨id, pass, w⟩) (applied : applyAt o id w pass = .ok (w', changed)) :
    Outlasts I id w w' changed := by
  rcases applyAt_eq_ok applied with ⟨-, rfl, rfl⟩ | ⟨b, w₁, here, isApplied, rfl⟩
  · exact .refl holds
  · have outlasts := lasting.apply isKind holds here isApplied
    cases changed with
    | false => exact outlasts
    | true => exact ⟨lasting.tally outlasts.holds _, fun unchanged => by cases unchanged⟩

theorem round_outlasts (lasting : Lasting o K I) (holds : I (· = id) w) {passes : List Pass}
    (kinds : ∀ m ∈ roundMoments o id w passes, K m)
    (rounds : round o id w passes = .ok (w', changed)) : Outlasts I id w w' changed := by
  induction passes generalizing w w' changed with
  | nil =>
    cases rounds
    exact .refl holds
  | cons pass passes ih =>
    obtain ⟨w₁, first, others, applied, later, rfl⟩ := round_cons_eq_ok rounds
    rw [roundMoments_cons applied] at kinds
    obtain ⟨isKind, kinds⟩ := List.forall_mem_cons.1 kinds
    have outlasts := applyAt_outlasts lasting holds isKind applied
    exact outlasts.trans (ih outlasts.holds kinds later)

theorem settleBlock_outlasts (lasting : Lasting o K I) (holds : I (· = id) w) {limit : Nat}
    (kinds : ∀ m ∈ blockMoments o id limit w, K m) {outcome : BlockOutcome}
    (settles : settleBlock o id limit w changed = .ok outcome) :
    ∃ more, outcome.changed = (changed || more) ∧ Outlasts I id w outcome.workspace more := by
  induction limit generalizing w changed with
  | zero =>
    cases settles
    exact ⟨false, (Bool.or_false _).symm, .refl holds⟩
  | succ limit ih =>
    obtain ⟨w₁, more, rounds, ends⟩ := settleBlock_succ_eq_ok settles
    rw [blockMoments_succ rounds] at kinds
    obtain ⟨kinds, later⟩ := List.forall_mem_append.1 kinds
    have outlasts := round_outlasts lasting holds kinds rounds
    rcases ends with ⟨rfl, rfl⟩ | ⟨rfl, settles⟩
    · exact ⟨false, (Bool.or_false _).symm, outlasts⟩
    · obtain ⟨further, isChanged, outlasts'⟩ := ih outlasts.holds later settles
      refine ⟨true, ?_, outlasts.trans outlasts'⟩
      rw [isChanged]
      simp

theorem roundMoments_hold (lasting : Lasting o K I) (holds : I (· = id) w) (passes : List Pass)
    (kinds : ∀ m ∈ roundMoments o id w passes, K m) :
    ∀ m ∈ roundMoments o id w passes, m.id = id ∧ I (· = id) m.workspace := by
  induction passes generalizing w with
  | nil => exact fun m none => absurd none List.not_mem_nil
  | cons pass passes ih =>
    obtain ⟨isKind, later⟩ := List.forall_mem_cons.1 kinds
    refine List.forall_mem_cons.2 ⟨⟨rfl, holds⟩, ?_⟩
    split
    · exact fun m none => absurd none List.not_mem_nil
    · next w₁ more applied =>
      rw [applied] at later
      exact ih (applyAt_outlasts lasting holds isKind applied).holds later

theorem blockMoments_hold (lasting : Lasting o K I) (holds : I (· = id) w) (limit : Nat)
    (kinds : ∀ m ∈ blockMoments o id limit w, K m) :
    ∀ m ∈ blockMoments o id limit w, m.id = id ∧ I (· = id) m.workspace := by
  induction limit generalizing w with
  | zero => exact fun m none => absurd none List.not_mem_nil
  | succ limit ih =>
    obtain ⟨first, later⟩ := List.forall_mem_append.1 kinds
    refine List.forall_mem_append.2 ⟨roundMoments_hold lasting holds _ first, ?_⟩
    split
    · exact fun m none => absurd none List.not_mem_nil
    · next w₁ more rounds =>
      rw [rounds] at later
      simp only at later
      split
      · next goesOn =>
        rw [if_pos goesOn] at later
        exact ih (round_outlasts lasting holds first rounds).holds later
      · exact fun m none => absurd none List.not_mem_nil

end Block

/-! ## All blocks -/

section Blocks

variable {o : Options} {K : Moment → Prop} {I : (Nat → Prop) → Workspace → Prop} {id limit : Nat}
variable {w : Workspace}

/-- When a block has been settled, the condition holds without exception for the next one. -/
theorem holds_next (lasting : Lasting o K I) (holds : I (fun _ => False) w)
    (kinds : ∀ m ∈ blockMoments o id limit w, K m) {first : BlockOutcome}
    (settles : settleBlock o id limit w false = .ok first) :
    I (fun _ => False) ((if first.changed then first.workspace.invalidate
      else first.workspace).refresh o) := by
  have here : I (· = id) w := lasting.mono holds fun _ never => never.elim
  obtain ⟨more, isChanged, outlasts⟩ := settleBlock_outlasts lasting here kinds settles
  rw [isChanged, Bool.false_or]
  cases more with
  | true => exact lasting.renew outlasts.holds
  | false =>
    have same := outlasts.same rfl _ holds
    rw [if_neg Bool.false_ne_true, refresh_of_current (lasting.current same)]
    exact same

/-- A lasting condition holds whenever a pass is about to be applied to a block, but for what the
facts say of this block. -/
theorem moments_hold (lasting : Lasting o K I) (holds : I (fun _ => False) (w.refresh o))
    (limit : Nat) (ids : List Nat) (kinds : ∀ m ∈ graphMoments o limit ids w, K m) :
    ∀ m ∈ graphMoments o limit ids w, m.id ∈ ids ∧ I (· = m.id) m.workspace := by
  induction ids generalizing w with
  | nil => exact fun m none => absurd none List.not_mem_nil
  | cons id ids ih =>
    have here : I (· = id) (w.refresh o) := lasting.mono holds fun _ never => never.elim
    obtain ⟨kindsHere, later⟩ := List.forall_mem_append.1 kinds
    refine List.forall_mem_append.2 ⟨fun m inBlock => ?_, ?_⟩
    · obtain ⟨rfl, isKept⟩ := blockMoments_hold lasting here limit kindsHere m inBlock
      exact ⟨List.mem_cons_self .., isKept⟩
    · split
      · exact fun m none => absurd none List.not_mem_nil
      · next first settles =>
        rw [settles] at later
        simp only at later
        split
        · exact fun m none => absurd none List.not_mem_nil
        · next goesOn =>
          rw [if_neg goesOn] at later
          intro m isLater
          obtain ⟨isPlace, isKept⟩ :=
            ih (holds_next lasting holds kindsHere settles) later m isLater
          exact ⟨List.mem_cons_of_mem _ isPlace, isKept⟩

/-- A lasting condition holds when some blocks have been settled. -/
theorem settleBlocks_holds (lasting : Lasting o K I) (holds : I (fun _ => False) (w.refresh o))
    {ids : List Nat} (kinds : ∀ m ∈ graphMoments o limit ids w, K m) {outcome : BlockOutcome}
    (settles : settleBlocks o limit ids w = .ok outcome) :
    ∃ outdated, I outdated (outcome.workspace.refresh o) := by
  induction ids generalizing w outcome with
  | nil =>
    cases settles
    exact ⟨_, holds⟩
  | cons id ids ih =>
    have here : I (· = id) (w.refresh o) := lasting.mono holds fun _ never => never.elim
    obtain ⟨first, settlesFirst, ends⟩ := settleBlocks_cons_eq_ok settles
    rw [graphMoments_cons settlesFirst] at kinds
    obtain ⟨kinds, later⟩ := List.forall_mem_append.1 kinds
    rcases ends with ⟨-, rfl⟩ | ⟨stable, others, settlesOthers, rfl⟩
    · obtain ⟨more, -, outlasts⟩ := settleBlock_outlasts lasting here kinds settlesFirst
      refine ⟨(· = id), ?_⟩
      rw [refresh_of_current (lasting.current outlasts.holds)]
      exact outlasts.holds
    · rw [stable] at later
      have kept := ih (holds_next lasting holds kinds settlesFirst) later settlesOthers
      exact kept

end Blocks

/-! ## Faults -/

section Faults

variable {o : Options} {I : (Nat → Prop) → Workspace → Prop} {id : Nat} {w : Workspace}
variable (lasting : Lasting o (fun _ => True) I)
variable (faultless : ∀ {id w b} (pass : Pass), I (· = id) w → w.graph.block? id = some b →
  ∃ w' changed, pass.apply o w b = (w', .ok changed))

include lasting faultless

theorem round_ok (holds : I (· = id) w) (passes : List Pass) :
    ∃ result, round o id w passes = .ok result := by
  induction passes generalizing w with
  | nil => exact ⟨_, rfl⟩
  | cons pass passes ih =>
    obtain ⟨⟨w₁, changed⟩, applied⟩ : ∃ result, applyAt o id w pass = .ok result := by
      unfold applyAt
      split
      · exact ⟨_, rfl⟩
      · next b here =>
        obtain ⟨w₁, changed, applied⟩ := faultless pass holds here
        rw [applied]
        exact ⟨_, rfl⟩
    obtain ⟨others, later⟩ := ih (applyAt_outlasts lasting holds trivial applied).holds
    refine ⟨(others.1, changed || others.2), ?_⟩
    rw [round, applied]
    simp only [later, bind, Except.bind, pure, Except.pure]

theorem settleBlock_ok (holds : I (· = id) w) (limit : Nat) (changed : Bool) :
    ∃ outcome, settleBlock o id limit w changed = .ok outcome := by
  induction limit generalizing w changed with
  | zero => exact ⟨_, rfl⟩
  | succ limit ih =>
    obtain ⟨⟨w₁, more⟩, rounds⟩ := round_ok lasting faultless holds Pass.all
    rw [settleBlock, rounds]
    cases more with
    | false => exact ⟨_, rfl⟩
    | true => exact ih (round_outlasts lasting holds (fun _ _ => trivial) rounds).holds true

/-- If no pass faults where a lasting condition holds, the blocks are settled without a fault. -/
theorem settleBlocks_ok (holds : I (fun _ => False) (w.refresh o)) (limit : Nat)
    (ids : List Nat) : ∃ outcome, settleBlocks o limit ids w = .ok outcome := by
  induction ids generalizing w with
  | nil => exact ⟨_, rfl⟩
  | cons id ids ih =>
    have here : I (· = id) (w.refresh o) := lasting.mono holds fun _ never => never.elim
    obtain ⟨first, settles⟩ := settleBlock_ok lasting faultless here limit false
    simp only [settleBlocks, settles, bind, Except.bind, pure, Except.pure]
    split
    · exact ⟨_, rfl⟩
    · obtain ⟨others, settlesOthers⟩ := ih (holds_next lasting holds (fun _ _ => trivial) settles)
      rw [settlesOthers]
      exact ⟨_, rfl⟩

end Faults

/-! ## Relations to the start and the end -/

/-- The workspace of the moment has come from where it has to come from, and what the pass makes of
it leads to where it has to lead. -/
structure Moment.Between (o : Options) (comes leads : Workspace → Prop) (m : Moment) : Prop where
  comes : comes m.workspace
  leads : ∀ b, m.workspace.graph.block? m.id = some b →
    ∃ w changed, m.pass.apply o m.workspace b = (w, .ok changed) ∧ leads w

theorem Moment.Between.imp {o : Options} {comes leads comes' leads' : Workspace → Prop} {m : Moment}
    (between : m.Between o comes leads) (before : ∀ w, comes w → comes' w)
    (after : ∀ w, leads w → leads' w) : m.Between o comes' leads' :=
  ⟨before _ between.comes, fun b here =>
    let ⟨w, changed, applied, isLeading⟩ := between.leads b here
    ⟨w, changed, applied, after w isLeading⟩⟩

/-- Counting a change and refreshing leave the graph and the identities alone. -/
theorem counted_alike (o : Options) (w : Workspace) (changed : Bool) :
    let w' := Workspace.refresh o
      (if changed then { w with tally.changes := w.tally.changes + 1 } else w)
    w'.graph = w.graph ∧ w'.nextId = w.nextId := by
  simp only [refresh_graph, refresh_nextId]
  cases changed <;> exact ⟨rfl, rfl⟩

/-- So does going on to the next block. -/
theorem next_alike (outcome : BlockOutcome) :
    let w' := if outcome.changed then outcome.workspace.invalidate else outcome.workspace
    w'.graph = outcome.workspace.graph ∧ w'.nextId = outcome.workspace.nextId := by
  cases outcome.changed <;> exact ⟨rfl, rfl⟩

section Related

variable {o : Options} {K : Moment → Prop} {R : Workspace → Workspace → Prop} {id limit : Nat}
variable {w w' : Workspace} {changed : Bool} {passes : List Pass} {ids : List Nat}
variable {outcome : BlockOutcome}
variable (refl : ∀ w, R w w) (trans : ∀ {w₁ w₂ w₃}, R w₁ w₂ → R w₂ w₃ → R w₁ w₃)
variable (alike : ∀ {w w₁ w₂ : Workspace}, R w w₁ → w₂.graph = w₁.graph → w₂.nextId = w₁.nextId →
  R w w₂)
variable (applies : ∀ {id w w' b pass changed}, K ⟨id, pass, w⟩ → w.graph.block? id = some b →
  Pass.apply o pass w b = (w', .ok changed) → R w w')

include refl trans alike applies

omit trans in
theorem applyAt_related {pass : Pass} (isKind : K ⟨id, pass, w⟩)
    (applied : applyAt o id w pass = .ok (w', changed)) : R w w' := by
  rcases applyAt_eq_ok applied with ⟨-, rfl, -⟩ | ⟨b, w₁, here, isApplied, rfl⟩
  · exact refl w'
  · have counted := counted_alike o w₁ changed
    exact alike (applies isKind here isApplied) counted.1 counted.2

theorem round_related (kinds : ∀ m ∈ roundMoments o id w passes, K m)
    (rounds : round o id w passes = .ok (w', changed)) : R w w' := by
  induction passes generalizing w changed with
  | nil =>
    cases rounds
    exact refl _
  | cons pass passes ih =>
    obtain ⟨w₁, first, others, applied, later, rfl⟩ := round_cons_eq_ok rounds
    rw [roundMoments_cons applied] at kinds
    obtain ⟨isKind, kinds⟩ := List.forall_mem_cons.1 kinds
    exact trans (applyAt_related refl alike applies isKind applied) (ih kinds later)

theorem settleBlock_related (kinds : ∀ m ∈ blockMoments o id limit w, K m)
    (settles : settleBlock o id limit w changed = .ok outcome) : R w outcome.workspace := by
  induction limit generalizing w changed with
  | zero =>
    cases settles
    exact refl _
  | succ limit ih =>
    obtain ⟨w₁, more, rounds, ends⟩ := settleBlock_succ_eq_ok settles
    rw [blockMoments_succ rounds] at kinds
    obtain ⟨kinds, later⟩ := List.forall_mem_append.1 kinds
    have related := round_related refl trans alike applies kinds rounds
    rcases ends with ⟨-, rfl⟩ | ⟨rfl, settles⟩
    · exact related
    · exact trans related (ih later settles)

/-- What relates a workspace to what a pass makes of it relates it to what becomes of it when some
blocks are settled, if it only looks at the graph and the next identity. -/
theorem settleBlocks_related (kinds : ∀ m ∈ graphMoments o limit ids w, K m)
    (settles : settleBlocks o limit ids w = .ok outcome) : R w outcome.workspace := by
  induction ids generalizing w outcome with
  | nil =>
    cases settles
    exact refl _
  | cons id ids ih =>
    obtain ⟨first, settlesFirst, ends⟩ := settleBlocks_cons_eq_ok settles
    rw [graphMoments_cons settlesFirst] at kinds
    obtain ⟨kinds, later⟩ := List.forall_mem_append.1 kinds
    have refreshed : R w (w.refresh o) := alike (refl w) (refresh_graph o w) (refresh_nextId o w)
    have related :=
      trans refreshed (settleBlock_related refl trans alike applies kinds settlesFirst)
    rcases ends with ⟨-, rfl⟩ | ⟨stable, others, settlesOthers, rfl⟩
    · exact related
    · rw [stable] at later
      have next := next_alike first
      have onward := ih later settlesOthers
      exact trans (alike related next.1 next.2) onward

theorem roundMoments_related (kinds : ∀ m ∈ roundMoments o id w passes, K m)
    (rounds : round o id w passes = .ok (w', changed)) :
    ∀ m ∈ roundMoments o id w passes, m.Between o (R w) (R · w') := by
  induction passes generalizing w changed with
  | nil => exact fun m none => absurd none List.not_mem_nil
  | cons pass passes ih =>
    obtain ⟨w₁, first, others, applied, later, rfl⟩ := round_cons_eq_ok rounds
    rw [roundMoments_cons applied] at kinds ⊢
    obtain ⟨isKind, kinds⟩ := List.forall_mem_cons.1 kinds
    have related := round_related refl trans alike applies kinds later
    refine List.forall_mem_cons.2 ⟨⟨refl w, fun b here => ?_⟩, fun m isLater => ?_⟩
    · rcases applyAt_eq_ok applied with ⟨none, -⟩ | ⟨b', w₂, here', isApplied, rfl⟩
      · cases none.symm.trans here
      · cases here'.symm.trans here
        have counted := counted_alike o w₂ first
        exact ⟨w₂, first, isApplied, trans (alike (refl w₂) counted.1 counted.2) related⟩
    · have onward := applyAt_related refl alike applies isKind applied
      exact (ih kinds later m isLater).imp (fun _ => trans onward) fun _ same => same

theorem blockMoments_related (kinds : ∀ m ∈ blockMoments o id limit w, K m)
    (settles : settleBlock o id limit w changed = .ok outcome) :
    ∀ m ∈ blockMoments o id limit w, m.Between o (R w) (R · outcome.workspace) := by
  induction limit generalizing w changed with
  | zero => exact fun m none => absurd none List.not_mem_nil
  | succ limit ih =>
    obtain ⟨w₁, more, rounds, ends⟩ := settleBlock_succ_eq_ok settles
    rw [blockMoments_succ rounds] at kinds ⊢
    obtain ⟨kinds, later⟩ := List.forall_mem_append.1 kinds
    have between := roundMoments_related refl trans alike applies kinds rounds
    have related := round_related refl trans alike applies kinds rounds
    rcases ends with ⟨rfl, rfl⟩ | ⟨rfl, settles⟩
    · exact List.forall_mem_append.2 ⟨between, fun m none => absurd none List.not_mem_nil⟩
    · have onward := settleBlock_related refl trans alike applies later settles
      exact List.forall_mem_append.2
        ⟨fun m member => (between m member).imp (fun _ same => same) fun _ before =>
            trans before onward,
          fun m member => (ih later settles m member).imp (fun _ => trans related) fun _ same =>
            same⟩

/-- All moments while some blocks are settled lie between the first workspace and the last. -/
theorem graphMoments_related (kinds : ∀ m ∈ graphMoments o limit ids w, K m)
    (settles : settleBlocks o limit ids w = .ok outcome) :
    ∀ m ∈ graphMoments o limit ids w, m.Between o (R w) (R · outcome.workspace) := by
  induction ids generalizing w outcome with
  | nil => exact fun m none => absurd none List.not_mem_nil
  | cons id ids ih =>
    obtain ⟨first, settlesFirst, ends⟩ := settleBlocks_cons_eq_ok settles
    rw [graphMoments_cons settlesFirst] at kinds ⊢
    obtain ⟨kinds, later⟩ := List.forall_mem_append.1 kinds
    have refreshed : R w (w.refresh o) := alike (refl w) (refresh_graph o w) (refresh_nextId o w)
    have between := blockMoments_related refl trans alike applies kinds settlesFirst
    have related :=
      trans refreshed (settleBlock_related refl trans alike applies kinds settlesFirst)
    rcases ends with ⟨unstable, rfl⟩ | ⟨stable, others, settlesOthers, rfl⟩
    · rw [unstable]
      exact List.forall_mem_append.2
        ⟨fun m member => (between m member).imp (fun _ => trans refreshed) fun _ same => same,
          fun m none => absurd none List.not_mem_nil⟩
    · rw [stable] at later ⊢
      have next := next_alike first
      have onward := settleBlocks_related refl trans alike applies later settlesOthers
      refine List.forall_mem_append.2 ⟨fun m member => ?_, fun m member => ?_⟩
      · exact (between m member).imp (fun _ => trans refreshed) fun _ before =>
          trans (alike before next.1 next.2) onward
      · exact (ih later settlesOthers m member).imp
          (fun _ => trans (alike related next.1 next.2)) fun _ same => same

end Related

end Optimizer

end MipsFlow
