import MipsFlow.Proofs.LivePaths

/-!
# Three views of live registers

Which registers are live is told in three ways. The solution of the analysis has them for the ends
of a block, and takes the whole block in one step, by its summary. `Facts.liveAt` goes backward from
the exit, one instruction after the other. `Facts.deadAt` looks for one register forward, and stops
at the first instruction that decides. `live_views_agree` says that all three are one. For the walks
this is `Liveness.deadIn_eq_false_iff`, instruction by instruction; for the summary it follows from
what it means to be read first, or not to be written at all (`mem_liveAt`, `mem_entryOf`).
-/

namespace MipsFlow

namespace Facts

variable {g : Graph} {reserved : List Reg} {id : Nat} {b : Block} {r : Reg}

/-- The summary of a block has the effect of its instructions: what is live before the first of them
is live at the entry. -/
theorem mem_liveAt_zero (regular : g.Regular) (here : g.block? id = some b) :
    r ∈ (analyze g reserved).liveAt b 0 ↔ r ∈ (analyze g reserved).live.entryOf id := by
  rw [mem_liveAt regular here, mem_entryOf regular here, mem_exitOf regular here, List.drop_zero,
    b.accesses_eq]

/-- In a graph with fresh facts, before every instruction of a block and behind the last one, the
register is dead if and only if it is not live there; and before the first one exactly the registers
are live that the analysis has for the entry of the block. -/
theorem live_views_agree (regular : g.Regular) (here : g.block? id = some b) :
    (∀ i r, (analyze g reserved).deadAt b i r = true ↔ r ∉ (analyze g reserved).liveAt b i) ∧
      ∀ r, r ∈ (analyze g reserved).liveAt b 0 ↔ r ∈ (analyze g reserved).live.entryOf id := by
  refine ⟨fun i r => ?_, fun r => mem_liveAt_zero regular here⟩
  by_cases fixed : r ∈ reserved
  · -- reserved registers are live at the exit of the block, and the way back keeps them
    have isLive : r ∈ (analyze g reserved).liveAt b i :=
      (mem_liveAt regular here i).2 (Or.inl fixed)
    have isFixed : (analyze g reserved).reserved.contains r = true :=
      FactSet.contains_iff.2 (FactSet.mem_ofList.2 fixed)
    simp [deadAt, isFixed, isLive]
  · have free : r ∉ (analyze g reserved).reserved := fun member =>
      fixed (FactSet.mem_ofList.1 member)
    have isFree : (analyze g reserved).reserved.contains r = false := by
      rwa [← Bool.not_eq_true, FactSet.contains_iff]
    rw [deadAt, isFree, Bool.not_false, Bool.true_and, liveAt,
      ← Liveness.deadIn_eq_false_iff free, Bool.not_eq_false]

/-- In a loop that is left through a register, the three agree on the counter, on a register that
the loop overwrites, and on an argument that only the unknown destination may read. -/
theorem live_views_agree_loop :
    let general (n : Fin 32) := Operand.reg (.general n)
    let code : List Instr := [⟨1, .label "Loop", "", []⟩,
      .ofCommand 2 (.ofOpcode .addu [general 9, general 8, general 8]),
      .ofCommand 3 (.ofOpcode .addiu [general 8, general 8, .imm (-1)]),
      .ofCommand 4 (.ofOpcode .bne [general 8, general 9, .sym "Loop"]),
      .ofCommand 5 (.ofOpcode .jr [general 25])]
    let g := Graph.build code
    let f := analyze g [.general 29]
    ∃ b, g.Regular ∧ g.block? 0 = some b ∧ f.deadAt b 0 (.general 8) = false ∧
      f.deadAt b 0 (.general 9) = true ∧ f.deadAt b 0 (.general 4) = false ∧
      f.deadAt b 0 (.general 29) = false := by
  intro general code g f
  have regular : g.Regular := Graph.build_regular code
  obtain ⟨b, here⟩ : ∃ b, g.block? 0 = some b := Graph.block?_of_lt_size (by decide +kernel)
  obtain ⟨dead, entry⟩ : (∀ i r, f.deadAt b i r = true ↔ r ∉ f.liveAt b i) ∧
      ∀ r, r ∈ f.liveAt b 0 ↔ r ∈ f.live.entryOf 0 := live_views_agree regular here
  have decides : ∀ r, f.deadAt b 0 r = true ↔ r ∉ f.live.entryOf 0 := fun r =>
    (dead 0 r).trans (not_congr (entry r))
  have alive : ∀ r, r ∈ f.live.entryOf 0 → f.deadAt b 0 r = false := fun r live => by
    rw [← Bool.not_eq_true, decides]
    exact not_not_intro live
  exact ⟨b, regular, here, alive _ (by decide +kernel), (decides _).2 (by decide +kernel),
    alive _ (by decide +kernel), alive _ (by decide +kernel)⟩

end Facts

end MipsFlow
