import MipsFlow.Proofs.Faults
import MipsFlow.Proofs.Preservation
import MipsFlow.Proofs.StaleFacts
import MipsFlow.Proofs.TrappingRuns

/-!
# The optimizer preserves overflows

A graph *retains* another one if it differs from it in code that was reworked, the machine with
traps runs its code, and it strikes wherever the other one does. So is a graph related to the one
that the work on its blocks has started with (`retains_lasting`), and an optimized program overruns
where the program does (`run_spares`).

* `optimizer_preserves_overflow`: if a program stops for an overflow, the optimized program stops.
* `optimizer_loses_division`: a program that divides by zero stops, but not so the optimized
  program, if nothing needs the quotient. A quotient counts as a value without effects, as if it
  could not stop the program.
-/

namespace MipsFlow

namespace Machine

variable {c : Command} {p : Instr}

/-! ## Commands -/

theorem Source.named {x : Operand} (source : Source x) : ∀ r, x.base? = some r → Named r := by
  cases x with
  | reg r =>
    intro q same
    cases same
    exact source
  | imm n => exact nofun
  | mem _ _ | sym _ => exact source.elim

/-- A command is direct if its roles say so, and its operands have names. -/
theorem direct_of_form {form : Form} (isForm : c.form? = some form)
    (direct : form.defs = [] ∨ 0 ∉ form.uses)
    (named : ∀ x ∈ c.args, ∀ r, x.base? = some r → Named r) : c.isDirect = true := by
  rw [Command.isDirect, Bool.and_eq_true, isForm, List.all_eq_true]
  refine ⟨by simpa using direct, fun r isNamed => ?_⟩
  obtain ⟨x, member, isBase⟩ := List.mem_filterMap.1 isNamed
  rw [Bool.not_eq_true']
  exact named x member r isBase

/-- A calculation with a register and two values. -/
theorem direct_of_binary {op : Opcode} {d : Reg} {x y : Operand}
    (isForm : (Command.ofOpcode op [.reg d, x, y]).form? = some .binary) (target : Target d)
    (left : Source x) (right : Source y) : (Command.ofOpcode op [.reg d, x, y]).isDirect = true :=
  direct_of_form isForm (Or.inr (by decide)) (by
    simpa [Command.ofOpcode, Operand.base?] using ⟨target.1, left.named, right.named⟩)

theorem Understood.isDirect (understood : Understood c) : c.isDirect = true := by
  cases understood with
  | literal d n target =>
    exact direct_of_form (show _ = some Form.define from rfl) (Or.inr (by decide))
      (by simpa [Command.ofOpcode, Operand.base?] using target.1)
  | move d x target source =>
    exact direct_of_form (show _ = some Form.unary from rfl) (Or.inr (by decide))
      (by simpa [Command.ofOpcode, Operand.base?] using ⟨target.1, source.named⟩)
  | compute op d x y member target left right =>
    refine direct_of_binary ?_ target left right
    simp only [operations, List.mem_cons, List.not_mem_nil, or_false] at member
    rcases member with rfl | rfl | rfl | rfl | rfl | rfl | rfl | rfl <;> rfl
  | multiply x y left right =>
    exact direct_of_form (show _ = some Form.multiplier from rfl) (Or.inl rfl)
      (by simpa [Command.ofOpcode] using ⟨left.named, right.named⟩)
  | fetch d target =>
    exact direct_of_form (show _ = some (Form.fetch .lo) from rfl) (Or.inr (by decide))
      (by simpa [Command.ofOpcode, Operand.base?] using target.1)
  | store x n base source isBase =>
    exact direct_of_form (show _ = some Form.use from rfl) (Or.inl rfl)
      (by simpa [Command.ofOpcode, Operand.base?] using ⟨source.named, isBase⟩)
  | load d n base target isBase =>
    exact direct_of_form (show _ = some Form.define from rfl) (Or.inr (by decide))
      (by simpa [Command.ofOpcode, Operand.base?] using ⟨target.1, isBase⟩)
  | branch op x y label isBranch left right =>
    rcases isBranch with rfl | rfl <;>
      exact direct_of_form (show _ = some Form.useBoth from rfl) (Or.inl rfl)
        (by simpa [Command.ofOpcode, Operand.base?] using ⟨left.named, right.named⟩)
  | jump label => rfl
  | ret op isJump => rcases isJump with rfl | rfl <;> rfl

theorem Admitted.isDirect (admitted : Admitted c) : c.isDirect = true := by
  cases admitted with
  | understood understood => exact understood.isDirect
  | calculate op d x y member target left right =>
    exact direct_of_binary (form?_of_mem_trapping member target x y) target left right
  | negate d x target source =>
    exact direct_of_form (show _ = some Form.unary from rfl) (Or.inr (by decide))
      (by simpa [Command.ofOpcode, Operand.base?] using ⟨target.1, source.named⟩)

theorem Admits.isDirect (admits : Admits p) : p.isDirect = true := by
  unfold Instr.isDirect
  cases command : p.command? with
  | none => rfl
  | some c => exact (admits c command).isDirect

theorem Admits.isSeparate (admits : Admits p) : p.isSeparate = true := by
  unfold Instr.isSeparate
  cases command : p.command? with
  | none => rfl
  | some c => exact (admits c command).known.2.2

/-- The machine with traps runs commands that read through a copy. -/
theorem rereadable_admits {reserved : FactSet Reg}
    (reserves : ∀ r ∈ Reg.alwaysReserved, r ∈ reserved) :
    Propagation.Rereadable reserved Admits := by
  intro p q c annotated note admits admitsCopy makes e command
  have named := (admitsCopy _ (Copy.of?_eq_some makes).1).copy_inv.2
  rw [Propagation.map_command?_reread] at command
  obtain ⟨d, old, rfl⟩ := Option.map_eq_some_iff.1 command
  exact (admits d old).renameReads named (Propagation.aside_of_makes reserves makes).1

/-! ## Programs -/

/-- The machine with traps runs the program, its jumps go to labels that are declared once, and it
ends with a return. -/
structure Admissible (code : List Instr) : Prop where
  admits : ∀ p ∈ code, Admits p
  targets : ∀ e ∈ exits code, ∀ label, e.target? = some label →
    (Graph.declared code).count label = 1
  returns : LastReturns code

namespace Admissible

variable {code code' : List Instr}

theorem steerable (admissible : Admissible code) : Steerable code :=
  ⟨fun p member => (admissible.admits p member).steered,
    fun p member c command =>
      (Bool.or_eq_false_iff.1 (admissible.admits p member c command).known.2.1).1,
    admissible.targets⟩

/-- No product lacks an operand, since nothing is foreign. -/
theorem whole (admissible : Admissible code) : Whole code := by
  intro p member
  rw [Bool.eq_false_iff]
  intro short
  obtain ⟨c, command, isShort⟩ := (Option.any_eq_true _ _).1 short
  have foreign := Command.isForeign_of_isShortProduct isShort
  rw [(admissible.admits p member c command).known.1] at foreign
  contradiction

theorem laid (admissible : Admissible code) : (Graph.build code).Laid (Graph.placeOf code) :=
  Graph.build_laid (fun p member c command jumps =>
    (admissible.admits p member c command).understood_of_isJump jumps)
    admissible.targets admissible.returns

theorem rework (admissible : Admissible code) (reworked : Reworked code code')
    (admits : ∀ p ∈ code', Admits p) : Admissible code' := by
  refine ⟨admits, fun e member label target => ?_, reworked.lastReturns admissible.returns⟩
  unfold Graph.declared
  rw [reworked.labels_eq]
  exact admissible.targets e (reworked.exits_eq ▸ member) label target

end Admissible

end Machine

open Machine

/-! ## Graphs -/

/-- The second graph differs from the first in code that was reworked, and that the machine with
traps runs, and it strikes wherever the first one does. -/
structure Graph.Retains (places : String → Option Nat) (g g' : Graph) : Prop where
  shape : g.SameShape g'
  reworked : ∀ {id : Nat} {b b' : Block}, g.block? id = some b → g'.block? id = some b' →
    Reworked b.code b'.code
  admits : g'.All Admits
  strikes : ∀ s, g.Strikes places s → g'.Strikes places s

namespace Graph.Retains

variable {places : String → Option Nat} {g g' g'' : Graph} {f : Facts} {reserved : List Reg}

theorem refl (admits : g.All Admits) : g.Retains places g := by
  refine ⟨.refl g, ?_, admits, fun _ strikes => strikes⟩
  intro id b b' here there
  cases here.symm.trans there
  exact .refl _

theorem trans (first : g.Retains places g') (second : g'.Retains places g'') :
    g.Retains places g'' := by
  refine ⟨first.shape.trans second.shape, ?_, second.admits,
    fun s strikes => second.strikes s (first.strikes s strikes)⟩
  intro id b b'' here there
  obtain ⟨code, between⟩ := first.shape.block? here
  exact (first.reworked here between).trans (second.reworked between there)

/-- Exchanging the code of a block for code that upholds it. -/
theorem setCode {id : Nat} {b : Block} {v : View} {code : List Instr} (admits : g.All Admits)
    (sound : f.LiveSound g reserved) (here : g.block? id = some b)
    (reserves : v.reserved = f.reserved) (liveOut : v.liveOut = f.live.exitOf id)
    (reworked : Reworked b.code code)
    (upholds : Upholds v b.code code) : g.Retains places (g.setCode id code) := by
  have improves := upholds.improves places
  rw [reserves, liveOut] at improves
  have improved : Graph.Improved (onward places) f g (g.setCode id code) := .setCode here improves
  refine ⟨improved.shape, ?_, Graph.All.setCode admits here upholds.admits, fun s =>
    improved.strikes (fun isBlock p member => (admits isBlock p member).isKnown) sound ?_⟩
  · exact Graph.setCode_related (R := fun _ c c' => Reworked c.code c'.code) here reworked
      fun _ _ => .refl _
  · exact Graph.setCode_related (R := fun _ c c' => ∀ t, Machine.Strikes places c.code t →
      Machine.Strikes places c'.code t) here (upholds.strikes places) fun _ _ _ strikes => strikes

end Graph.Retains

/-! ## Passes -/

namespace Workspace

variable {o : Options} {places : String → Option Nat} {w w' : Workspace} {id n : Nat} {b : Block}
variable {g : Graph} {changed : Bool}

/-- Propagation of copies leaves the runs as they are. -/
theorem propagation_retains (safe : w.Safe o n True (· = id))
    (reserves : ∀ r ∈ Reg.alwaysReserved, r ∈ w.facts.reserved) (admits : w.graph.All Admits)
    (nonempty : 0 < w.graph.size) :
    w.graph.Retains places (Propagation.run o.annotated w.facts w.graph id).graph := by
  have tracks : Propagation.Tracks w.facts w.graph id _ :=
    .run o.annotated safe.tidy.separate reserves id
  obtain ⟨first, isFirst⟩ := Graph.block?_of_lt_size nonempty
  have grounds : Propagation.Grounds (onward places) w.facts w.graph id 0 :=
    ⟨fun _ _ => rfl, reserves Reg.zero (by decide), safe.tidy.regular, safe.copies, first, isFirst,
      Or.inl rfl⟩
  exact ⟨tracks.shape, tracks.reworked, tracks.kept (rereadable_admits reserves) admits, fun s =>
    (Propagation.Keeps.run o.annotated grounds safe.tidy.separate s).follows.strikes⟩

/-- Every pass retains the graph. -/
theorem apply_retains (safe : w.Safe o n True (· = id))
    (reserves : ∀ r ∈ Reg.alwaysReserved, r ∈ o.reserved) (laid : w.graph.Laid places)
    (admits : w.graph.All Admits) (here : w.graph.block? id = some b) {pass : Pass}
    (applied : pass.apply o w b = (w', .ok changed)) : w.graph.Retains places w'.graph := by
  have reserves' : ∀ r ∈ Reg.alwaysReserved, r ∈ w.facts.reserved :=
    reserves_of_reserved safe.reserved reserves
  have zero := reserves' Reg.zero (by decide)
  have sees : b.unresolved = false := laid.resolved here
  have place := laid.regular.place here
  let v := w.facts.view o.annotated b
  let block : BlockCode := ⟨b.code, w.nextId⟩
  have stores : ∀ new : BlockCode, Reworked b.code new.code → Upholds v b.code new.code →
      w.graph.Retains places (w.store b.id new).graph := by
    intro new reworked upholds
    have liveOut : v.liveOut = w.facts.live.exitOf id := by
      rw [← place]
      rfl
    show w.graph.Retains places (w.graph.setCode b.id new.code)
    rw [place]
    exact .setCode admits (safe.live trivial) here rfl liveOut reworked upholds
  cases pass with
  | redundancy =>
    cases applied
    exact stores _ (Redundancy.leads_reworks (v := v) zero (Redundancy.leads_run v block) .refl).1
      (Redundancy.redundancy_upholds zero sees block (admits here))
  | sharing =>
    cases applied
    exact stores _ (Sharing.sharing_lightens (v := v) block).reworked
      (Sharing.sharing_upholds block (admits here))
  | folding =>
    obtain rfl := (Prod.mk.inj applied).1
    exact stores _ (Folding.folding_lightens (v := v) block).reworked
      (Folding.folding_upholds (show ∀ p ∈ block.code, Admits p from admits here))
  | propagation =>
    cases applied
    rw [place]
    exact propagation_retains safe reserves' admits
      (Nat.lt_of_le_of_lt (Nat.zero_le id) (Graph.lt_size_of_block? here))
  | deadCode =>
    cases applied
    exact stores ⟨_, w.nextId⟩ (DeadCode.deadCode_lightens (v := v) (laid.last here)).reworked
      (DeadCode.deadCode_upholds sees (admits here))

/-- That the graph retains the one before outlasts the work on all blocks. -/
theorem retains_lasting (reserves : ∀ r ∈ Reg.alwaysReserved, r ∈ o.reserved)
    (laid : g.Laid places) : Lasting o (fun _ => True) fun outdated w =>
      w.Safe o n True outdated ∧ g.Retains places w.graph := by
  refine (safe_lasting n True reserves).and_graph (R := fun g' => g.Retains places g')
    (fun _ safe retains _ window repl isMet => ?_) fun safe retains here applied =>
      retains.trans (apply_retains safe reserves (laid.reworked retains.shape retains.reworked)
        retains.admits here applied)
  exact Optimizer.Moment.not_misdirects
    (reserves_of_reserved safe.reserved reserves Reg.zero (by decide))
    (fun p member => (Graph.all_iff.1 retains.admits p member).isDirect) isMet

end Workspace

/-! ## Runs -/

namespace Optimizer

variable {o : Options} {limit : Nat} {s s' : State} {changed : Bool} {code code' : List Instr}

/-- The machine with traps runs the new program, which overruns wherever the old one does. -/
structure Spares (code code' : List Instr) : Prop where
  admissible : Admissible code'
  overruns : ∀ s, Overruns code s → Overruns code' s

theorem Spares.trans {code'' : List Instr} (first : Spares code code')
    (second : Spares code' code'') : Spares code code'' :=
  ⟨second.admissible, fun s overruns => second.overruns s (first.overruns s overruns)⟩

theorem spares_of_simplifies (admissible : Admissible code)
    (simplifies : Jumps.Simplifies code code') : Spares code code' := by
  have steerable := admissible.steerable
  refine ⟨⟨simplifies.forall_commands steerable.steered .understood admissible.admits,
    (simplifies.steerable steerable).targets, simplifies.lastReturns admissible.returns⟩,
    fun s => (simplifies.results_iff steerable (upToOverflow_steers _)).1⟩

/-- One cycle. -/
theorem cycle_spares (reserves : ∀ r ∈ Reg.alwaysReserved, r ∈ o.reserved)
    (admissible : Admissible s.program.code) (cycled : cycle o limit s = .ok (s', changed)) :
    Spares s.program.code s'.program.code := by
  obtain ⟨outcome, settles, ends⟩ := cycle_eq_ok cycled
  cases ends
  let jumps := Jumps.run o.annotated s.program.nextId s.program.code
  have simplified : Spares s.program.code jumps.code := spares_of_simplifies admissible
    (Jumps.runFrom_simplifies o.annotated s.program.nextId [] s.program.code)
  refine simplified.trans ?_
  have admits := simplified.admissible.admits
  have laid := simplified.admissible.laid
  let g := Graph.build jumps.code
  have flat : g.flatten = jumps.code := Graph.flatten_build jumps.code
  have all : g.All Admits := Graph.all_iff.2 (flat ▸ admits)
  have safe : ((s.workspace o).refresh o).Safe o g.size True fun _ => False :=
    safe_create o True (fun p member => (admits p member).isSeparate) _ _
  obtain ⟨-, -, retains⟩ := settleBlocks_holds (Workspace.retains_lasting reserves laid)
    ⟨safe, (Workspace.refresh_graph o (s.workspace o)).symm ▸ .refl all⟩ (fun _ _ => trivial)
    settles
  rw [Workspace.refresh_graph] at retains
  have reworked := retains.shape.flatten_reworked retains.reworked
  have nonempty := Graph.size_pos_of_lastReturns simplified.admissible.returns
  rw [flat] at reworked
  refine ⟨simplified.admissible.rework reworked (Graph.all_iff.1 retains.admits),
    fun t overruns => ?_⟩
  refine (Graph.overruns_iff_strikes (laid.reworked retains.shape retains.reworked) retains.admits
    (retains.shape.size_eq.symm ▸ nonempty)).2 (retains.strikes t ?_)
  exact (Graph.overruns_iff_strikes laid all nonempty).1 (flat.symm ▸ overruns)

/-- The whole optimizer. -/
theorem run_spares (reserves : ∀ r ∈ Reg.alwaysReserved, r ∈ o.reserved) {program : Program}
    {final : State} (admissible : Admissible program.code) (ran : run o program = .ok final) :
    Spares program.code final.program.code := by
  obtain ⟨s, cycled, rfl⟩ := run_eq_ok ran
  have spares := cycles_related
    (R := fun p q => Admissible p.code → Spares p.code q.code)
    (fun _ admissible => ⟨admissible, fun _ overruns => overruns⟩)
    (fun first second admissible =>
      have once := first admissible
      once.trans (second once.admissible))
    (fun cycled admissible => cycle_spares reserves admissible cycled) cycled admissible
  refine spares.trans (spares_of_simplifies spares.admissible ?_)
  unfold State.finish
  split
  · exact .of_bare (bare_summarize o s).symm
  · exact .of_bare rfl

/-- An overflow is not optimized away, and the machine with traps runs the optimized program. -/
theorem optimizer_preserves_overflow (o : Options)
    (reserves : ∀ r ∈ Reg.alwaysReserved, r ∈ o.reserved) (program : Program)
    (admits : ∀ p ∈ program.code, Admits p)
    (targets : ∀ p ∈ program.code, ∀ label, p.target? = some label →
      (Graph.declared program.code).count label = 1)
    (returns : LastReturns program.code) :
    ∃ final, run o program = .ok final ∧ Admissible final.program.code ∧ ∀ s : Machine.State,
      Traps program.code s .overflow → ∃ trap, Traps final.program.code s trap := by
  have admissible : Admissible program.code := by
    refine ⟨admits, fun e exit label target => ?_, returns⟩
    obtain ⟨p, member, isTarget⟩ := exists_target_of_mem_exits exit target
    exact targets p member label isTarget
  obtain ⟨final, ran⟩ := run_ok admissible.whole o
  have spares := run_spares reserves admissible ran
  exact ⟨final, ran, spares.admissible, fun s traps =>
    (spares.overruns s (.of_traps admits traps)).traps spares.admissible.admits⟩

/-- A sum that is doubled in a loop until it overflows. Nothing needs it. -/
theorem optimizer_preserves_overflow_loop :
    let code : List Instr := [.ofCommand 1 (.loadImm (.general 8) 1000000000),
      ⟨2, .label "Loop", "", []⟩,
      .ofCommand 3 (.ofOpcode .add [.reg (.general 8), .reg (.general 8), .reg (.general 8)]),
      .ofCommand 4 (.ofOpcode .j [.sym "Loop"]),
      .ofCommand 5 (.ofOpcode .jr [.reg Reg.link])]
    let s : Machine.State := ⟨fun _ => 0, fun _ => 0⟩
    Traps code s .overflow ∧ ∃ final, run { verbose := 2 } ⟨code, 6⟩ = .ok final ∧
      ∃ trap, Traps final.program.code s trap := by
  intro code s
  have admits : ∀ p ∈ code, Admits p := by
    intro p member
    simp only [code, List.mem_cons, List.not_mem_nil, or_false] at member
    rcases member with rfl | rfl | rfl | rfl | rfl
    · exact admits_of_command rfl (.understood (.literal _ _ ⟨rfl, rfl⟩))
    · exact fun c command => by cases command
    · exact admits_of_command rfl (.calculate _ _ _ _ (by decide) ⟨rfl, rfl⟩ rfl rfl)
    · exact admits_of_command rfl (.understood (.jump _))
    · exact admits_of_command rfl (.understood (.ret _ (Or.inr rfl)))
  have targets : ∀ p ∈ code, ∀ label, p.target? = some label →
      (Graph.declared code).count label = 1 := by
    have known : ∀ p ∈ code, p.target? = none ∨ p.target? = some "Loop" := by decide
    intro p member label isTarget
    rcases known p member with isNone | isLoop
    · cases isNone.symm.trans isTarget
    · cases isLoop.symm.trans isTarget
      decide
  have stopped : (runTrapping code 10 code s).bind error? = some .overflow := by decide +kernel
  have traps : Traps code s .overflow := .of_error? stopped
  obtain ⟨final, ran, -, preserves⟩ := optimizer_preserves_overflow { verbose := 2 }
    (fun r member => member) ⟨code, 6⟩ admits targets ⟨_, rfl, rfl⟩
  exact ⟨traps, final, ran, preserves s traps⟩

/-- In `div $10,$8,$9; jr $31` nothing needs the quotient. The program stops if `$9` is zero, and
the optimized program, which has lost the division, does not. -/
theorem optimizer_loses_division :
    let code : List Instr := [
      .ofCommand 1 (.ofOpcode .div [.reg (.general 10), .reg (.general 8), .reg (.general 9)]),
      .ofCommand 2 (.ofOpcode .jr [.reg Reg.link])]
    let s : Machine.State := ⟨fun _ => 0, fun _ => 0⟩
    (∀ p ∈ code, Admits p ∧ p.target? = none) ∧ LastReturns code ∧ Traps code s .undefined ∧
      ∃ final, run {} ⟨code, 3⟩ = .ok final ∧ ∀ trap, ¬ Traps final.program.code s trap := by
  intro code s
  have admits : ∀ p ∈ code, Admits p ∧ p.target? = none := by
    intro p member
    simp only [code, List.mem_cons, List.not_mem_nil, or_false] at member
    rcases member with rfl | rfl
    · exact ⟨admits_of_command rfl (.calculate _ _ _ _ (by decide) ⟨rfl, rfl⟩ rfl rfl), rfl⟩
    · exact ⟨admits_of_command rfl (.understood (.ret _ (Or.inr rfl))), rfl⟩
  have shown : ((run {} ⟨code, 3⟩).toOption.map fun s => s.program.code) =
      some [.ofCommand 2 (.ofOpcode .jr [.reg Reg.link])] := by
    decide +kernel
  obtain ⟨final, ran, left⟩ := Option.map_eq_some_iff.1 shown
  refine ⟨admits, ⟨_, rfl, rfl⟩, ⟨2, rfl⟩, final, ok_of_toOption ran, ?_⟩
  rintro trap ⟨fuel, stops⟩
  -- the first command of what is left returns
  rw [left] at stops
  cases fuel with
  | zero => cases stops
  | succ fuel => cases stops

end Optimizer

end MipsFlow
