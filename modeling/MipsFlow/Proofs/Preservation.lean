import MipsFlow.Proofs.JumpPass
import MipsFlow.Proofs.Settling

/-!
# The optimizer preserves behaviour

A cycle turns a program that the machine runs into another one that ends alike (`cycle_keeps`), and
so does any number of cycles (`cycles_keep`). Attaching facts to the instructions changes nothing.

* `optimizer_preserves_behaviour`: with any options that reserve the default registers, the program
  that the optimizer leaves behind, converged or not, ends from the same states as the original
  one, and then with the same memory and the same values in the result registers, in the registers
  that a call keeps, and in the reserved ones.
* `optimizer_loses_loaded_register`: it is not so for a program that loads a register with `li` from
  another one, which is taken to read nothing.
-/

namespace MipsFlow

namespace Jumps

/-- Notes alone simplify nothing. -/
theorem Simplifies.of_bare {code code' : List Instr}
    (same : code.map Instr.bare = code'.map Instr.bare) : Simplifies code code' := by
  replace same := forall₂_of_map_eq same
  induction same with
  | nil => exact .nil
  | cons same _ ih => exact .keep same.symm ih

end Jumps

namespace Machine

/-- A longer run ends in the same state. -/
theorem run_mono {code rest : List Instr} {fuel : Nat} {s t : State}
    (ended : run code fuel rest s = some t) (more : Nat) :
    run code (fuel + more) rest s = some t := by
  induction fuel generalizing rest s with
  | zero => contradiction
  | succ fuel ih =>
    rw [Nat.add_right_comm]
    cases rest with
    | nil => exact ended
    | cons p rest =>
      unfold run at ended ⊢
      split at ended
      · exact ih ended
      · split at ended
        · next returns => rwa [if_pos returns]
        · next stays =>
          rw [if_neg stays]
          split at ended
          · exact ih ended
          · exact ih ended

/-- A program ends in one state only. -/
theorem Ends.unique {code : List Instr} {s t t' : State} (ends : Ends code s t)
    (ends' : Ends code s t') : t = t' := by
  obtain ⟨fuel, ended⟩ := ends
  obtain ⟨fuel', ended'⟩ := ends'
  have longer := run_mono ended fuel'
  have longer' := run_mono ended' fuel
  rw [Nat.add_comm, longer] at longer'
  exact Option.some.inj longer'

end Machine

namespace Optimizer

open Machine

variable {o : Options}

/-- What the optimizer makes of a program. -/
structure Keeps (o : Options) (code code' : List Instr) : Prop where
  fit : Fit code'
  alike : EndAlike (Liveness.atExit o.reserved) code code'

theorem Keeps.trans {a b c : List Instr} (first : Keeps o a b) (second : Keeps o b c) :
    Keeps o a c :=
  ⟨second.fit, first.alike.trans second.alike⟩

theorem keeps_of_simplifies {code code' : List Instr} (fit : Fit code)
    (simplifies : Jumps.Simplifies code code') : Keeps o code code' :=
  ⟨simplifies.fit fit, .of_iff fun _ _ => simplifies.ends_iff fit⟩

/-- One cycle. -/
theorem cycle_keeps (reserves : ∀ r ∈ Reg.alwaysReserved, r ∈ o.reserved) (limit : Nat) {s : State}
    (fit : Fit s.program.code) :
    ∃ s' changed, cycle o limit s = .ok (s', changed) ∧
      Keeps o s.program.code s'.program.code := by
  let jumps := Jumps.run o.annotated s.program.nextId s.program.code
  have simplifies : Jumps.Simplifies s.program.code jumps.code :=
    Jumps.runFrom_simplifies o.annotated s.program.nextId [] s.program.code
  have keeps : Keeps o s.program.code jumps.code := keeps_of_simplifies fit simplifies
  let g := Graph.build jumps.code
  have flat : g.flatten = jumps.code := Graph.flatten_build jumps.code
  have wired := Graph.build_wired keeps.fit
  let w := Workspace.create o g jumps.nextId { s.tally with cycles := s.tally.cycles + 1 }
  have ready : (w.refresh o).Ready o (Graph.placeOf jumps.code) fun _ => False :=
    ⟨wired, Graph.size_pos_of_lastReturns keeps.fit.returns, rfl, rfl,
      analyze_liveSound wired.regular, analyze_copiesSound wired.regular⟩
  obtain ⟨outcome, settles, advances⟩ :=
    settleBlocks_advances ready reserves limit (List.range g.size)
  have settled : Keeps o jumps.code outcome.workspace.graph.flatten := by
    have alike := advances.alike
    have reworked := advances.recoded.shape.flatten_reworked advances.recoded.reworked
    rw [show w.graph.flatten = jumps.code from flat] at alike reworked
    exact ⟨keeps.fit.rework reworked (Graph.all_iff.1 advances.recoded.runs), alike⟩
  simp only [g, w, jumps] at settles
  unfold cycle
  simp only [settles, bind, Except.bind, pure, Except.pure]
  exact ⟨_, _, rfl, keeps.trans settled⟩

/-- Any number of cycles. -/
theorem cycles_keep (reserves : ∀ r ∈ Reg.alwaysReserved, r ∈ o.reserved) (limit left : Nat)
    {s : State} (fit : Fit s.program.code) :
    ∃ s', cycles o limit left s = .ok s' ∧ Keeps o s.program.code s'.program.code := by
  induction left generalizing s with
  | zero => exact ⟨_, rfl, fit, .refl _⟩
  | succ left ih =>
    obtain ⟨s', changed, cycled, keeps⟩ := cycle_keeps reserves limit fit
    rw [cycles, cycled]
    simp only [bind, Except.bind, pure, Except.pure]
    split
    · obtain ⟨s'', further, keeps'⟩ := ih keeps.fit
      exact ⟨s'', further, keeps.trans keeps'⟩
    · exact ⟨s', rfl, keeps⟩

/-- Attaching facts changes notes only. -/
theorem bare_summarize (o : Options) (s : State) :
    (summarize o s).program.code.map Instr.bare = s.program.code.map Instr.bare := by
  unfold summarize
  simp only
  conv => rhs; rw [← Graph.flatten_build s.program.code]
  unfold Graph.flatten
  rw [List.map_flatMap, List.map_flatMap]
  refine List.flatMap_congr fun b _ => ?_
  cases b.code with
  | nil => rfl
  | cons p rest => simp

/-- The whole optimizer. -/
theorem run_keeps (reserves : ∀ r ∈ Reg.alwaysReserved, r ∈ o.reserved) {program : Program}
    (fit : Fit program.code) :
    ∃ final, run o program = .ok final ∧ Keeps o program.code final.program.code := by
  obtain ⟨s, cycled, keeps⟩ := cycles_keep reserves (o.cycleLimit program.size)
    (o.cycleLimit program.size)
    (s := { program, summary := { initial := program.size, peak := program.size },
            tally := { units := 1 } }) fit
  unfold run
  simp only [cycled, bind, Except.bind, pure, Except.pure]
  refine ⟨_, rfl, ?_⟩
  split
  · exact keeps.trans (keeps_of_simplifies keeps.fit (.of_bare (bare_summarize o s).symm))
  · exact keeps

/-- The optimizer preserves behaviour. Take a program of commands that the machine runs, with any
labels, directives and comments between them, in which every target of a jump is declared exactly
once and the last command returns. Whatever the options, if they reserve the default registers, the
optimizer leaves such a program again, which ends from exactly the states from which the original
one ends, with the same memory and the same values in the registers that are seen from outside. -/
theorem optimizer_preserves_behaviour (o : Options)
    (reserves : ∀ r ∈ Reg.alwaysReserved, r ∈ o.reserved) (program : Program)
    (runs : ∀ p ∈ program.code, Runs p)
    (targets : ∀ p ∈ program.code, ∀ label, p.target? = some label →
      (Graph.declared program.code).count label = 1)
    (returns : LastReturns program.code) :
    ∃ final, run o program = .ok final ∧ Fit final.program.code ∧ ∀ s : Machine.State,
      ((∃ t, Ends program.code s t) ↔ ∃ t, Ends final.program.code s t) ∧
        ∀ t t', Ends program.code s t → Ends final.program.code s t' →
          t'.mem = t.mem ∧ ∀ r ∈ o.reserved ++ Reg.results ++ Reg.calleeSaved,
            value t' (.reg r) = value t (.reg r) := by
  have fit : Fit program.code := by
    refine ⟨runs, fun e exit label target => ?_, returns⟩
    obtain ⟨p, member, isTarget⟩ := exists_target_of_mem_exits exit target
    exact targets p member label isTarget
  obtain ⟨final, isFinal, keeps⟩ := run_keeps reserves fit
  refine ⟨final, isFinal, keeps.fit, fun s => ⟨⟨?_, ?_⟩, fun t t' ends ends' => ?_⟩⟩
  · rintro ⟨t, ends⟩
    obtain ⟨t', ends', -⟩ := keeps.alike.forth ends
    exact ⟨t', ends'⟩
  · rintro ⟨t', ends'⟩
    obtain ⟨t, ends, -⟩ := keeps.alike.back ends'
    exact ⟨t, ends⟩
  · obtain ⟨u, found, memory, registers⟩ := keeps.alike.forth ends
    cases found.unique ends'
    exact ⟨memory.symm, fun r member => (registers r (FactSet.mem_ofList.2 member)).symm⟩

/-- A sum computed in a loop, with a copy before it and a branch over a jump at its end. -/
theorem optimizer_preserves_behaviour_loop :
    let code : List Instr := [.ofCommand 1 (.loadImm (.general 8) 5),
      .ofCommand 2 (.copy (.general 9) (.general 8)),
      ⟨3, .label "Loop", "", []⟩,
      .ofCommand 4 (.ofOpcode .addu [.reg (.general 2), .reg (.general 2), .reg (.general 9)]),
      .ofCommand 5 (.ofOpcode .addiu [.reg (.general 9), .reg (.general 9), .imm (-1)]),
      .ofCommand 6 (.ofOpcode .beq [.reg (.general 9), .reg Reg.zero, .sym "Done"]),
      .ofCommand 7 (.ofOpcode .j [.sym "Loop"]),
      ⟨8, .label "Done", "", []⟩,
      .ofCommand 9 (.ofOpcode .jr [.reg Reg.link])]
    let s : Machine.State := ⟨fun _ => 0, fun _ => 0⟩
    ∃ final, run { verbose := 2 } ⟨code, 10⟩ = .ok final ∧
      ∃ t, Ends final.program.code s t ∧ value t (.reg (.general 2)) = 15 := by
  intro code s
  have runs : ∀ p ∈ code, Runs p := by
    intro p member
    simp only [code, List.mem_cons, List.not_mem_nil, or_false] at member
    rcases member with rfl | rfl | rfl | rfl | rfl | rfl | rfl | rfl | rfl
    · exact runs_of_command rfl (.literal _ _ ⟨rfl, rfl⟩)
    · exact runs_of_command rfl (.move _ _ ⟨rfl, rfl⟩ rfl)
    · exact fun c command => by cases command
    · exact runs_of_command rfl (.compute _ _ _ _ (by decide) ⟨rfl, rfl⟩ rfl rfl)
    · exact runs_of_command rfl (.compute _ _ _ _ (by decide) ⟨rfl, rfl⟩ rfl trivial)
    · exact runs_of_command rfl (.branch _ _ _ _ (Or.inl rfl) rfl rfl)
    · exact runs_of_command rfl (.jump _)
    · exact fun c command => by cases command
    · exact runs_of_command rfl (.ret _ (Or.inr rfl))
  have targets : ∀ p ∈ code, ∀ label, p.target? = some label →
      (Graph.declared code).count label = 1 := by
    have known : ∀ p ∈ code, p.target? = none ∨ p.target? = some "Loop" ∨
        p.target? = some "Done" := by decide
    intro p member label isTarget
    rcases known p member with isNone | isLoop | isDone
    · cases isNone.symm.trans isTarget
    · cases isLoop.symm.trans isTarget
      decide
    · cases isDone.symm.trans isTarget
      decide
  have returns : LastReturns code := ⟨_, rfl, rfl⟩
  have ended : ((Machine.run code 40 code s).map fun t => value t (.reg (.general 2))) =
      some 15 := by decide +kernel
  obtain ⟨t, ends, sum⟩ := Option.map_eq_some_iff.1 ended
  obtain ⟨final, isFinal, -, preserves⟩ := optimizer_preserves_behaviour { verbose := 2 }
    (fun r member => member) ⟨code, 10⟩ runs targets returns
  obtain ⟨t', ends'⟩ := (preserves s).1.1 ⟨t, 40, ends⟩
  refine ⟨final, isFinal, t', ends', ?_⟩
  rw [((preserves s).2 t t' ⟨40, ends⟩ ends').2 (.general 2) (by decide), sum]

/-- In `li $9,5; li $2,$9; jr $31` the second command loads a register, as a copy would. It is taken
to read nothing, so the first command is dead and goes, and the result is lost. -/
theorem optimizer_loses_loaded_register :
    let code : List Instr := [.ofCommand 1 (.loadImm (.general 9) 5),
      .ofCommand 2 (.ofOpcode .li [.reg (.general 2), .reg (.general 9)]),
      .ofCommand 3 (.ofOpcode .jr [.reg Reg.link])]
    let s : Machine.State := ⟨fun _ => 0, fun _ => 0⟩
    (∀ p ∈ code, p.target? = none) ∧ LastReturns code ∧ .general 2 ∈ Reg.results ∧
      ∃ final, run {} ⟨code, 4⟩ = .ok final ∧ ∃ t t', Ends code s t ∧
        Ends final.program.code s t' ∧ value t (.reg (.general 2)) = 5 ∧
          value t' (.reg (.general 2)) = 0 := by
  intro code s
  have lost : ((run {} ⟨code, 4⟩).toOption.bind fun final =>
      (Machine.run final.program.code 40 final.program.code s).map fun t' =>
        value t' (.reg (.general 2))) = some 0 := by decide +kernel
  have ended : ((Machine.run code 40 code s).map fun t => value t (.reg (.general 2))) =
      some 5 := by decide +kernel
  obtain ⟨final, ran, isEnd⟩ := Option.bind_eq_some_iff.1 lost
  obtain ⟨t', ends', isLost⟩ := Option.map_eq_some_iff.1 isEnd
  obtain ⟨t, ends, isLoaded⟩ := Option.map_eq_some_iff.1 ended
  exact ⟨by decide, ⟨_, rfl, rfl⟩, by decide, final, ok_of_toOption ran, t, t', ⟨40, ends⟩,
    ⟨40, ends'⟩, isLoaded, isLost⟩

end Optimizer

end MipsFlow
