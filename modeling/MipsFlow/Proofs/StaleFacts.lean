import MipsFlow.Proofs.LivePaths
import MipsFlow.Proofs.Pushes
import MipsFlow.Proofs.Settling

/-!
# Facts that are out of date

While the passes work on a block, the facts of the workspace are those of an earlier graph.
`stale_facts_conservative`: they stay on the safe side all the same. Whenever a pass is about to be
applied to a block, every register that an analysis of the graph at that moment would find live
behind the block is live there according to the facts, and every copy that is carried into another
block is one that such an analysis has available there.

Facts about live registers are on the safe side if they solve the inequations of the graph as it is,
since a new analysis finds the least solution (`LiveSound.covers`). A pass keeps that up if it
lightens the block (`Lightens`). This fails in one way only, when redundancy elimination misdirects
a command (`Redundancy.Misdirects`); `stale_facts_miss` has a run in which it does. Facts about
copies need not be right for the block that is worked on, as long as propagation finds there the
copies that it carries (`Propagation.pushes_available`).
-/

namespace MipsFlow

theorem Instr.isSeparate_iff {p : Instr} : p.isSeparate = true ↔
    ∀ form, p.form? = some form → ∀ i ∈ form.defs, i ∉ form.uses := by
  unfold Instr.isSeparate Instr.form?
  cases p.command? with
  | none => simp
  | some c => cases known : c.form? <;> simp [Command.isSeparate, known]

/-- What stems from separate commands is separate. -/
theorem Stems.separate {a b : List Instr} (stems : Stems a b)
    (isSeparate : ∀ p ∈ a, p.isSeparate = true) : ∀ q ∈ b, q.isSeparate = true := by
  intro q member
  refine Instr.isSeparate_iff.2 fun form known => ?_
  rcases stems.forms q member form known with rfl | rfl | ⟨p, inside, same⟩
  · decide
  · decide
  · exact Instr.isSeparate_iff.1 (isSeparate p inside) form same

/-! ## Facts that cover a new analysis -/

namespace Facts.LiveSound

variable {f : Facts} {g : Graph} {reserved : List Reg} {id : Nat} {b : Block} {r : Reg}

theorem leaves (sound : f.LiveSound g reserved) (here : g.block? id = some b)
    (live : b.LeavesLive reserved r fun next => r ∈ f.live.entryOf next) :
    r ∈ f.live.exitOf id := by
  rcases live with ⟨none, atExit⟩ | ⟨next, edge, entered⟩
  · exact sound.ends here none atExit
  · exact sound.edge here edge entered

/-- What a new analysis finds live at the entry of a block was live there, unless it is reserved. -/
theorem covers_entry (sound : f.LiveSound g reserved) (regular : g.Regular)
    (isReserved : f.reserved = .ofList reserved) (free : r ∉ reserved) (inside : id < g.size)
    (live : r ∈ (Facts.analyze g reserved).live.entryOf id) : r ∈ f.live.entryOf id := by
  have free' : r ∉ f.reserved := by
    rw [isReserved, FactSet.mem_ofList]
    exact free
  refine live_least regular free (fun id => r ∈ f.live.entryOf id) ?_ inside live
  intro id b here needs
  rw [Block.accesses_eq] at needs
  refine sound.block here ((Liveness.mem_liveIn free').2 ?_)
  exact needs.imp_right (And.imp_right (sound.leaves here))

/-- Facts that keep their promise have every register live behind a block that a new analysis finds
live there. -/
theorem covers (sound : f.LiveSound g reserved) (regular : g.Regular)
    (isReserved : f.reserved = .ofList reserved) (here : g.block? id = some b)
    (fixed : ∀ r ∈ reserved, r ∈ f.live.exitOf id)
    (live : r ∈ (Facts.analyze g reserved).live.exitOf id) : r ∈ f.live.exitOf id := by
  by_cases isFixed : r ∈ reserved
  · exact fixed r isFixed
  · refine sound.leaves here (((mem_exitOf regular here).1 live).imp_right ?_)
    rintro ⟨next, edge, entered⟩
    obtain ⟨after, there, -⟩ := regular.succ_pred here edge
    exact ⟨next, edge, sound.covers_entry regular isReserved isFixed
      (Graph.lt_size_of_block? there) entered⟩

end Facts.LiveSound

/-! ## The invariant -/

/-- What is fixed about the graph of a program without commands that read and write one operand: it
has the given number of blocks, each of which jumps at its end only. -/
structure Graph.Tidy (size : Nat) (g : Graph) : Prop where
  regular : g.Regular
  size : g.size = size
  last : ∀ {id : Nat} {b : Block}, g.block? id = some b → JumpsLast b.code
  separate : g.IsSeparate

/-- The facts of the workspace are on the safe side. What they say of copies may be out of date for
some blocks, and what they say of live registers counts if no command is misdirected. -/
structure Workspace.Safe (o : Options) (size : Nat) (proper : Prop) (outdated : Nat → Prop)
    (w : Workspace) : Prop where
  tidy : w.graph.Tidy size
  reserved : w.facts.reserved = .ofList o.reserved
  current : w.stale = false
  fixed : ∀ {id : Nat} {b : Block}, w.graph.block? id = some b →
    ∀ r ∈ o.reserved, r ∈ w.facts.live.exitOf id
  copies : w.facts.CopiesSound w.graph outdated
  live : proper → w.facts.LiveSound w.graph o.reserved

namespace Graph.Tidy

variable {n : Nat} {g g' : Graph}

theorem recode (tidy : g.Tidy n) (shape : g.SameShape g')
    (reworked : ∀ {id : Nat} {b b' : Block}, g.block? id = some b → g'.block? id = some b' →
      Reworked b.code b'.code)
    (separate : g'.IsSeparate) : g'.Tidy n := by
  refine ⟨shape.regular tidy.regular, shape.size_eq.trans tidy.size, ?_, separate⟩
  intro id b' there
  obtain ⟨code, here⟩ := shape.symm.block? there
  exact (reworked here there).jumpsLast (tidy.last here)

/-- Exchanging the code of a block for code that stems from it. -/
theorem setCode {id : Nat} {b : Block} {code : List Instr} (tidy : g.Tidy n)
    (here : g.block? id = some b) (reworked : Reworked b.code code) (stems : Stems b.code code) :
    (g.setCode id code).Tidy n := by
  refine tidy.recode (.setCode code) (Graph.setCode_related
    (R := fun _ c c' => Reworked c.code c'.code) here reworked fun _ _ => .refl _) ?_
  exact Graph.All.setCode tidy.separate here (stems.separate (tidy.separate here))

theorem build {code : List Instr} (separate : ∀ p ∈ code, p.isSeparate = true) :
    (Graph.build code).Tidy (Graph.build code).size := by
  refine ⟨Graph.build_regular code, rfl, fun here => (Graph.jumpsLast_build here).2, ?_⟩
  refine Graph.all_iff.2 ?_
  rwa [Graph.flatten_build]

end Graph.Tidy

namespace Workspace

variable {o : Options} {n id : Nat} {proper : Prop} {outdated : Nat → Prop} {w w' : Workspace}
variable {b : Block}

theorem Safe.congr (safe : w.Safe o n proper outdated) (graph : w'.graph = w.graph)
    (facts : w'.facts = w.facts) (current : w'.stale = false) : w'.Safe o n proper outdated := by
  obtain ⟨tidy, reserved, -, fixed, copies, live⟩ := safe
  rw [← graph] at tidy fixed copies live
  rw [← facts] at reserved fixed copies live
  exact ⟨tidy, reserved, current, fixed, copies, live⟩

/-- Facts that have just been computed are on the safe side. -/
theorem safe_of_analyze (tidy : w.graph.Tidy n)
    (facts : w.facts = Facts.analyze w.graph o.reserved) (current : w.stale = false) :
    w.Safe o n proper outdated := by
  refine ⟨tidy, ?_, current, ?_, ?_, fun _ => ?_⟩
  all_goals rw [facts]
  · rfl
  · exact fun here r isFixed => (reserved_live tidy.regular here isFixed).2
  · exact (analyze_copiesSound tidy.regular).mono fun _ never => never.elim
  · exact analyze_liveSound tidy.regular

theorem safe_of_stale (tidy : w.graph.Tidy n) (stale : w.stale = true) :
    (w.refresh o).Safe o n proper outdated := by
  rw [← refresh_graph o w] at tidy
  refine safe_of_analyze tidy ?_ (refresh_stale o w)
  rw [refresh_graph, refresh_facts stale]

/-- The block `id` may be exchanged for one that needs no more. -/
theorem Safe.recode (safe : w.Safe o n proper (· = id)) (facts : w'.facts = w.facts)
    (current : w'.stale = false) (tidy : w'.graph.Tidy n)
    (shape : w.graph.SameShape w'.graph)
    (others : ∀ other, other ≠ id → w'.graph.block? other = w.graph.block? other)
    (fewer : proper → ∀ {b b' : Block}, w.graph.block? id = some b →
      w'.graph.block? id = some b' → ∀ r ∈ Liveness.liveIn w.facts.reserved b.unresolved
        (w.facts.live.exitOf id) b'.code, r ∈ Liveness.liveIn w.facts.reserved b.unresolved
          (w.facts.live.exitOf id) b.code) : w'.Safe o n proper (· = id) := by
  refine ⟨tidy, ?_, current, ?_, ?_, fun isTrue => ?_⟩
  all_goals rw [facts]
  · exact safe.reserved
  · intro other b' there
    obtain ⟨code, here⟩ := shape.symm.block? there
    exact safe.fixed here
  · exact safe.copies.recode shape others
  · refine (safe.live isTrue).recode shape ?_
    intro other b b' isOld isNew r live
    by_cases isHere : other = id
    · subst isHere
      exact fewer isTrue isOld isNew r live
    · rw [others other isHere, isOld] at isNew
      cases isNew
      exact live

/-! ## Passes -/

/-- A pass that stores code for the block that is lighter, if no command is misdirected. -/
theorem store_outlasts {block : BlockCode} {changed : Bool} (safe : w.Safe o n proper (· = id))
    (here : w.graph.block? id = some b) (reworked : Reworked b.code block.code)
    (stems : Stems b.code block.code)
    (lightens : proper → Lightens (w.facts.view o.annotated b) b.code block.code)
    (same : changed = false → block.code = b.code) :
    Outlasts (Safe o n proper) id w ((w.store b.id block).refresh o) changed := by
  have place := safe.tidy.regular.place here
  have isGraph : (w.store b.id block).graph = w.graph.setCode id block.code := by
    rw [← place]
    rfl
  rw [refresh_of_current (show (w.store b.id block).stale = false from safe.current)]
  refine ⟨safe.recode rfl safe.current ?_ ?_ ?_ ?_,
    fun unchanged outdated before => before.congr ?_ rfl before.current⟩
  all_goals rw [isGraph]
  · exact safe.tidy.setCode here reworked stems
  · exact .setCode _
  · exact fun other isOther => Graph.block?_setCode_of_ne isOther
  · intro isProper c c' isOld isNew r live
    cases here.symm.trans isOld
    rw [Graph.block?_setCode_self here] at isNew
    cases isNew
    rw [← place] at live ⊢
    exact (lightens isProper).live (safe.tidy.last here) r live
  · rw [same unchanged, Graph.setCode_self here]

/-- Propagation of copies, which makes the facts stale if it reaches into other blocks. -/
theorem propagation_outlasts (safe : w.Safe o n proper (· = id))
    (reserves : ∀ r ∈ Reg.alwaysReserved, r ∈ o.reserved) :
    let st := Propagation.run o.annotated w.facts w.graph id
    let w' : Workspace := { w with graph := st.graph, stale := w.stale || st.elsewhere }
    Outlasts (Safe o n proper) id w (w'.refresh o) st.changed := by
  intro st w'
  have reserves' : ∀ r ∈ Reg.alwaysReserved, r ∈ w.facts.reserved :=
    reserves_of_reserved safe.reserved reserves
  have tracks : Propagation.Tracks w.facts w.graph id st :=
    .run o.annotated safe.tidy.separate reserves' id
  have tidy : st.graph.Tidy n := safe.tidy.recode tracks.shape tracks.reworked
    (tracks.kept (Propagation.rereadable_separate _) safe.tidy.separate)
  have isStale : w'.stale = st.elsewhere := by
    show (w.stale || st.elsewhere) = st.elsewhere
    rw [safe.current, Bool.false_or]
  cases elsewhere : st.elsewhere with
  | true =>
    have renewed : ∀ outdated, (w'.refresh o).Safe o n proper outdated := fun _ =>
      safe_of_stale tidy (isStale.trans elsewhere)
    exact ⟨renewed _, fun _ _ _ => renewed _⟩
  | false =>
    have current : w'.stale = false := isStale.trans elsewhere
    obtain ⟨others, fewer⟩ := tracks.live elsewhere
    rw [refresh_of_current current]
    refine ⟨safe.recode rfl current tidy tracks.shape others fun _ => ?_,
      fun unchanged outdated before => before.congr (tracks.same unchanged) rfl current⟩
    intro b b' isOld isNew r live
    exact fewer isOld isNew (safe.tidy.last isOld) live

/-- A pass that does not fault leaves the facts on the safe side. -/
theorem apply_outlasts (safe : w.Safe o n proper (· = id))
    (reserves : ∀ r ∈ Reg.alwaysReserved, r ∈ o.reserved) (here : w.graph.block? id = some b)
    {pass : Pass} {changed : Bool} (isProper : proper → ∀ window repl,
      Optimizer.Moment.Meets o ⟨id, pass, w⟩ window repl → ¬ Redundancy.Misdirects window repl)
    (applied : pass.apply o w b = (w', .ok changed)) :
    Outlasts (Safe o n proper) id w (w'.refresh o) changed := by
  have zero : Reg.zero ∈ w.facts.reserved :=
    reserves_of_reserved safe.reserved reserves Reg.zero (by decide)
  let v := w.facts.view o.annotated b
  let block : BlockCode := ⟨b.code, w.nextId⟩
  cases pass with
  | redundancy =>
    cases applied
    obtain ⟨reworked, stems⟩ :=
      Redundancy.leads_reworks (v := v) zero (Redundancy.leads_run v block) .refl
    refine store_outlasts safe here reworked stems (fun isTrue => ?_) fun unchanged =>
      congrArg BlockCode.code (exhaust_of_done unchanged _)
    have proper (window repl : List Instr) (isMet : Redundancy.Meets v block window repl) :
        ¬ Redundancy.Misdirects window repl := isProper isTrue window repl ⟨rfl, b, here, isMet⟩
    exact Redundancy.redundancy_lightens (v := v) zero proper
  | sharing =>
    cases applied
    have lightens := Sharing.sharing_lightens (v := v) block
    exact store_outlasts safe here lightens.reworked lightens.stems (fun _ => lightens)
      fun unchanged => congrArg BlockCode.code (exhaust_of_done unchanged _)
  | folding =>
    have same := (Folding.runFrom_trades v { fixed := w.facts.reserved } w.nextId b.code).2
    have lightens := Folding.folding_lightens (v := v) block
    simp only [Pass.apply, Prod.mk.injEq] at applied
    obtain ⟨rfl, isOk⟩ := applied
    split at isOk
    · cases isOk
    · cases isOk
      exact store_outlasts safe here lightens.reworked lightens.stems (fun _ => lightens) same
  | propagation =>
    cases applied
    rw [safe.tidy.regular.place here]
    exact propagation_outlasts safe reserves
  | deadCode =>
    cases applied
    have lightens := DeadCode.deadCode_lightens (v := v) (safe.tidy.last here)
    exact store_outlasts safe here lightens.reworked lightens.stems (fun _ => lightens)
      fun unchanged => exhaust_of_done unchanged _

/-- Every pass makes direct code of direct code. -/
theorem apply_direct (safe : w.Safe o n proper (· = id))
    (reserves : ∀ r ∈ Reg.alwaysReserved, r ∈ o.reserved) (here : w.graph.block? id = some b)
    {pass : Pass} {changed : Bool} (direct : ∀ p ∈ w.graph.flatten, p.isDirect = true)
    (applied : pass.apply o w b = (w', .ok changed)) :
    ∀ p ∈ w'.graph.flatten, p.isDirect = true := by
  have reserves' : ∀ r ∈ Reg.alwaysReserved, r ∈ w.facts.reserved :=
    reserves_of_reserved safe.reserved reserves
  have place := safe.tidy.regular.place here
  let v := w.facts.view o.annotated b
  let block : BlockCode := ⟨b.code, w.nextId⟩
  have stores : ∀ new : BlockCode, Stems b.code new.code →
      ∀ p ∈ (w.store b.id new).graph.flatten, p.isDirect = true := fun new stems =>
    Graph.all_iff.1 (Graph.All.setCode (Graph.all_iff.2 direct) (place ▸ here)
      (stems.direct fun p inside => direct p (Graph.mem_flatten here inside)))
  cases pass with
  | redundancy =>
    cases applied
    exact stores _ (Redundancy.leads_reworks (v := v) (reserves' Reg.zero (by decide))
      (Redundancy.leads_run v block) .refl).2
  | sharing =>
    cases applied
    exact stores _ (Sharing.sharing_lightens (v := v) block).stems
  | folding =>
    obtain rfl := (Prod.mk.inj applied).1
    exact stores _ (Folding.folding_lightens (v := v) block).stems
  | propagation =>
    cases applied
    have tracks : Propagation.Tracks w.facts w.graph b.id _ :=
      .run o.annotated safe.tidy.separate reserves' b.id
    exact Graph.all_iff.1 (tracks.kept (Propagation.rereadable_direct _) (Graph.all_iff.2 direct))
  | deadCode =>
    cases applied
    exact stores ⟨_, w.nextId⟩ (DeadCode.deadCode_lightens (v := v) (safe.tidy.last here)).stems

/-- That the facts are on the safe side outlasts the work on all blocks, as far as they go where
commands may be misdirected. -/
theorem safe_lasting (n : Nat) (proper : Prop)
    (reserves : ∀ r ∈ Reg.alwaysReserved, r ∈ o.reserved) :
    Lasting o (fun m => proper → ∀ window repl,
      m.Meets o window repl → ¬ Redundancy.Misdirects window repl) (Safe o n proper) where
  current := fun safe => safe.current
  congr := fun safe graph facts current => safe.congr graph facts current
  mono := fun safe fewer => { safe with copies := safe.copies.mono fewer }
  renew := fun safe => safe_of_stale safe.tidy rfl
  apply := fun isProper safe here applied => apply_outlasts safe reserves here isProper applied

/-- Direct code stays direct. -/
theorem direct_lasting (n : Nat) (reserves : ∀ r ∈ Reg.alwaysReserved, r ∈ o.reserved) :
    Lasting o (fun _ => True) fun outdated w =>
      w.Safe o n False outdated ∧ ∀ p ∈ w.graph.flatten, p.isDirect = true :=
  (safe_lasting n False reserves).and_graph (R := fun g => ∀ p ∈ g.flatten, p.isDirect = true)
    (fun _ _ _ => False.elim) fun safe direct here applied =>
      apply_direct safe reserves here direct applied

end Workspace

/-- In direct code no command is misdirected. -/
theorem Optimizer.Moment.not_misdirects {o : Options} {m : Optimizer.Moment}
    {window repl : List Instr} (zero : Reg.zero ∈ m.workspace.facts.reserved)
    (direct : ∀ p ∈ m.workspace.graph.flatten, p.isDirect = true) (isMet : m.Meets o window repl) :
    ¬ Redundancy.Misdirects window repl := by
  obtain ⟨-, b, here, isMet⟩ := isMet
  refine Redundancy.not_misdirects zero (fun p inside => ?_) isMet
  exact direct p (Graph.mem_flatten here inside)

/-! ## The moments of a run -/

namespace Optimizer

open Workspace

/-- The facts are on the safe side for the first block. -/
theorem safe_create (o : Options) (proper : Prop) {code : List Instr}
    (separate : ∀ p ∈ code, p.isSeparate = true) (nextId : Nat) (tally : Tally) :
    ((Workspace.create o (Graph.build code) nextId tally).refresh o).Safe o (Graph.build code).size
      proper fun _ => False := by
  rw [refresh_of_current rfl]
  exact safe_of_analyze (.build separate) rfl rfl

/-- Stale facts stay on the safe side. Take a program in which no command reads and writes one
operand, options that reserve the default registers, and any moment of a run over its graph at which
a pass is about to be applied to a block.

If the run misdirects no command, every register that a new analysis of the graph finds live behind
the block is live there according to the facts. In any case, if the pass is copy propagation, every
copy that it carries into another block is available there according to an analysis of the graph as
it is when the copy is carried.

A run misdirects a command if it computes an argument in place with a command that reads the operand
that gives way. It misdirects none if no command of the program that writes an operand reads its
first one. -/
theorem stale_facts_conservative (o : Options)
    (reserves : ∀ r ∈ Reg.alwaysReserved, r ∈ o.reserved) (code : List Instr)
    (separate : ∀ p ∈ code, p.isSeparate = true) (limit nextId : Nat) (tally : Tally) :
    let g := Graph.build code
    let moments := graphMoments o limit (List.range g.size) (Workspace.create o g nextId tally)
    let proper := ∀ m ∈ moments, ∀ window repl,
      m.Meets o window repl → ¬ Redundancy.Misdirects window repl
    ((∀ p ∈ code, p.isDirect = true) → proper) ∧ ∀ m ∈ moments,
      (proper → ∀ r ∈ (Facts.analyze m.workspace.graph o.reserved).live.exitOf m.id,
        r ∈ m.workspace.facts.live.exitOf m.id) ∧
      (m.pass = .propagation →
        ∀ push ∈ Propagation.pushes o.annotated m.workspace.facts m.workspace.graph m.id,
          push.copy ∈ (Facts.analyze push.graph o.reserved).copies.entryOf push.target) := by
  intro g moments proper
  refine ⟨fun isDirect m member window repl isMet => ?_, fun m member => ?_⟩
  · rw [← Graph.flatten_build code] at isDirect
    obtain ⟨-, safe, direct⟩ := moments_hold (direct_lasting _ reserves)
      ⟨safe_create o False separate nextId tally, (refresh_graph ..).symm ▸ isDirect⟩ limit _
      (fun _ _ => trivial) m member
    exact Moment.not_misdirects
      (reserves_of_reserved safe.reserved reserves Reg.zero (by decide)) direct isMet
  · obtain ⟨isPlace, safe⟩ := moments_hold (safe_lasting _ proper reserves)
      (safe_create o proper separate nextId tally) limit _
      (fun m member isProper => isProper m member) m member
    have reserves' : ∀ r ∈ Reg.alwaysReserved, r ∈ m.workspace.facts.reserved :=
      reserves_of_reserved safe.reserved reserves
    refine ⟨fun isProper r live => ?_, fun _ => ?_⟩
    · obtain ⟨b, here⟩ : ∃ b, m.workspace.graph.block? m.id = some b := by
        refine Graph.block?_of_lt_size ?_
        rw [safe.tidy.size]
        exact List.mem_range.1 isPlace
      exact (safe.live isProper).covers safe.tidy.regular safe.reserved here (safe.fixed here) live
    · exact Propagation.pushes_available o.annotated safe.tidy.regular safe.tidy.separate reserves'
        safe.copies safe.reserved

/-- A call in a loop, whose argument is computed in place as soon as the first block has been worked
on, and a copy that is carried from the second block into the third. -/
theorem stale_facts_conservative_loop :
    let general (n : Fin 32) := Operand.reg (.general n)
    let code : List Instr := [⟨1, .label "L", "", []⟩,
      .ofCommand 2 (.ofOpcode .addu [general 8, general 16, general 16]),
      .ofCommand 3 (.copy (.general 4) (.general 8)),
      .ofCommand 4 (.ofOpcode .jal [.sym "f"]),
      .ofCommand 5 (.copy (.general 9) (.general 16)),
      ⟨6, .label "M", "", []⟩,
      .ofCommand 7 (.ofOpcode .addu [general 2, general 9, general 9]),
      .ofCommand 8 (.ofOpcode .bne [general 2, general 16, .sym "M"]),
      .ofCommand 9 (.ofOpcode .j [.sym "L"])]
    let g := Graph.build code
    let moments := graphMoments {} 3 (List.range g.size) (Workspace.create {} g 10 {})
    (∃ m ∈ moments, m.pass = .sharing ∧ m.id = 0 ∧ m.workspace.graph.flatten.length = 8 ∧
      ∀ r ∈ (Facts.analyze m.workspace.graph Reg.alwaysReserved).live.exitOf 0,
        r ∈ m.workspace.facts.live.exitOf 0) ∧
    ∃ m ∈ moments, ∃ push ∈ Propagation.pushes false m.workspace.facts m.workspace.graph 1,
      push.target = 2 ∧
        push.copy ∈ (Facts.analyze push.graph Reg.alwaysReserved).copies.entryOf 2 := by
  intro general code g moments
  obtain ⟨isProper, safe⟩ :=
    stale_facts_conservative {} (fun r member => member) code (by decide) 3 10 {}
  have worked : (moments.any fun m =>
      m.pass = .sharing ∧ m.id = 0 ∧ m.workspace.graph.flatten.length = 8) = true := by
    decide +kernel
  have carried : (moments.any fun m => m.pass = .propagation ∧ m.id = 1 ∧
      ((Propagation.pushes false m.workspace.facts m.workspace.graph 1).any
        (·.target = 2)) = true) = true := by
    decide +kernel
  obtain ⟨m, isMoment, isWorked⟩ := List.any_eq_true.1 worked
  obtain ⟨isPass, isFirst, shorter⟩ := of_decide_eq_true isWorked
  obtain ⟨m', isMoment', isCarried⟩ := List.any_eq_true.1 carried
  obtain ⟨isPass', isSecond, isPushed⟩ := of_decide_eq_true isCarried
  obtain ⟨push, isPush, isTarget⟩ := List.any_eq_true.1 isPushed
  refine ⟨⟨m, isMoment, isPass, isFirst, shorter, ?_⟩,
    m', isMoment', push, isPush, of_decide_eq_true isTarget, ?_⟩
  · have live := (safe m isMoment).1 (isProper (by decide))
    rwa [isFirst] at live
  · have available := (safe m' isMoment').2 isPass' push
    rw [isSecond, of_decide_eq_true isTarget] at available
    exact available isPush

/-- The command `mtc1` writes its second operand and reads the first. In
`mtc1 $8, $8; move $4, $8; jal f` it is taken to write the first one, and becomes `mtc1 $4, $8`. In
a loop `$4` is live behind the block from then on, but not according to the facts. -/
theorem stale_facts_miss :
    let code : List Instr := [⟨1, .label "L", "", []⟩,
      .ofCommand 2 (.ofOpcode .mtc1 [.reg (.general 8), .reg (.general 8)]),
      .ofCommand 3 (.copy (.general 4) (.general 8)),
      .ofCommand 4 (.ofOpcode .jal [.sym "f"]),
      .ofCommand 5 (.loadImm (.general 8) 1),
      .ofCommand 6 (.ofOpcode .j [.sym "L"])]
    let g := Graph.build code
    (∀ p ∈ code, p.isSeparate = true) ∧
      ∃ m ∈ graphMoments {} 1 (List.range g.size) (Workspace.create {} g 7 {}),
        ∃ r ∈ (Facts.analyze m.workspace.graph Reg.alwaysReserved).live.exitOf m.id,
          r ∉ m.workspace.facts.live.exitOf m.id := by
  intro code g
  have missed : ((graphMoments {} 1 (List.range g.size) (Workspace.create {} g 7 {})).any fun m =>
      .general 4 ∈ (Facts.analyze m.workspace.graph Reg.alwaysReserved).live.exitOf m.id ∧
        .general 4 ∉ m.workspace.facts.live.exitOf m.id) = true := by
    decide +kernel
  obtain ⟨m, isMoment, isMissed⟩ := List.any_eq_true.1 missed
  obtain ⟨isLive, unknown⟩ := of_decide_eq_true isMissed
  exact ⟨by decide, m, isMoment, .general 4, isLive, unknown⟩

end Optimizer

end MipsFlow
