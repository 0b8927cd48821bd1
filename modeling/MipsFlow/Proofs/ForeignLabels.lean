import MipsFlow.Proofs.Control
import MipsFlow.Proofs.CopyPaths
import MipsFlow.Proofs.ExitLive

/-!
# Foreign commands that name a label

Nothing is known about a foreign command, so one that names a label may go there. The label starts a
block then, and no copy is available at its entry, as control may come in from out of sight. But an
edge leads there only if the command has the mnemonic of a jump and ends with the label, or with a
register. Before every other foreign command exactly those registers are live that it names itself
or that are needed behind it in its block and by the successors of that; what is needed at the label
does not count: `foreign_label_live`. So it may be considered dead, and lost: `foreign_label_lost`.
-/

namespace MipsFlow

open Access

/-- The command jumps to the label, or to where a register says, which may be any place whose
address is taken. -/
def Command.GoesTo (c : Command) (label : String) : Prop :=
  c.target? = some label ∨ c.isIndirect = true ∧ c.isCall = false

namespace Graph

variable {code : List Instr} {id place i : Nat} {b b' : Block} {p : Instr} {c : Command}
variable {label : String}

/-- A command that jumps to no label takes the addresses of the blocks whose labels it names. -/
theorem entry_of_names (inside : p ∈ code) (command : p.command? = some c)
    (direct : c.target? = none) (names : .sym label ∈ c.args)
    (there : (build code).block? place = some b') (leads : b'.label? = some label) :
    b'.entry = true := by
  obtain ⟨q, isHead, isLabel⟩ := Option.bind_eq_some_iff.1 leads
  have declares : label ∈ declared code := List.mem_filterMap.2
    ⟨q, mem_of_mem_build there (List.mem_of_mem_head? isHead), isLabel⟩
  have taken : label ∈ addressTaken (declared code) p := by
    have content : p.content = .command c := by
      unfold Instr.command? at command
      split at command <;> simp_all
    simp only [addressTaken, content, direct, Option.isSome_none, Bool.false_eq_true, if_false]
    exact List.mem_filter.2 ⟨List.mem_filterMap.2 ⟨_, names, rfl⟩, List.contains_iff_mem.2 declares⟩
  rw [entry_build there, leads]
  exact List.contains_iff_mem.2 (List.mem_flatMap.2 ⟨p, inside, taken⟩)

/-- A jump stands at the end of its block. -/
theorem jump?_of_getElem? (here : (build code).block? id = some b) (isHere : b.code[i]? = some p)
    (command : p.command? = some c) (jumps : c.isJump = true) :
    b.jump? = some c ∧ b.code.drop (i + 1) = [] := by
  have split : b.code = b.code.take i ++ p :: b.code.drop (i + 1) := by
    conv => lhs; rw [← List.take_append_drop i b.code, List.drop_eq_getElem?_toList_append, isHere]
    rfl
  have isJump : p.isJump = true := (Instr.isJump_of_command command).trans jumps
  have last : b.code.drop (i + 1) = [] := JumpsLast.eq_nil (split ▸ (jumpsLast_build here).2) isJump
  have isLast : b.code.getLast? = some p := List.getLast?_eq_some_iff.2 ⟨_, last ▸ split⟩
  refine ⟨?_, last⟩
  rw [Block.jump?, Block.terminator?, isLast, Option.filter_some, if_pos isJump]
  exact command

/-- An edge leads from a block that ends with a jump to every block that this goes to. -/
theorem mem_succ_of_goesTo (here : (build code).block? id = some b) (ends : b.jump? = some c)
    (goes : c.GoesTo label) (there : (build code).block? place = some b')
    (leads : b'.label? = some label) (entry : c.target? = none → b'.entry = true) :
    place ∈ b.succ := by
  have stays : c.isReturn = false := by
    rcases goes with target | ⟨indirect, -⟩
    · exact Command.isReturn_of_target? target
    · exact Bool.eq_false_iff.2 fun returns => by
        simp [Command.isIndirect_eq_false_of_isReturn returns] at indirect
  have isTarget : place ∈ jumpTargets (bareBlocks code) c := by
    unfold jumpTargets
    rcases goes with target | ⟨indirect, noCall⟩
    · simpa only [target] using mem_ledBy_of_leads there leads
    · have direct := Command.target?_of_isIndirect indirect
      simpa [direct, indirect, noCall] using mem_entries there (entry direct)
  rw [(succ_build here).1, List.mem_eraseDups, transfers_of_jump ends stays]
  exact List.mem_append_left _ isTarget

end Graph

/-- Before a foreign command exactly those registers are live that are reserved, that the command
reads, or that are needed behind it in its block and by the successors of this. So all that is
needed at a label which it names is live if it is a jump that goes there. Otherwise the label does
not count, even though its address is taken and no copy is available where it leads, as control may
come in there from out of sight. -/
theorem foreign_label_live (code : List Instr) (reserved : List Reg) {id place i : Nat}
    {b b' : Block} {p : Instr} {c : Command} {label : String}
    (here : (Graph.build code).block? id = some b) (isHere : b.code[i]? = some p)
    (command : p.command? = some c) (foreign : c.isForeign = true) (names : .sym label ∈ c.args)
    (there : (Graph.build code).block? place = some b') (leads : b'.label? = some label) :
    let f := Facts.analyze (Graph.build code) reserved
    let behind := Liveness.accesses b.unresolved (b.code.drop (i + 1))
    (∀ r, r ∈ f.liveAt b i ↔ r ∈ reserved ∨ r ∈ b.usesAt i ∨ ReadFirst r behind ∨
      Unwritten r behind ∧ b.LeavesLive reserved r fun next => r ∈ f.live.entryOf next) ∧
    (c.GoesTo label → ∀ r ∈ f.live.entryOf place, r ∈ f.liveAt b i) ∧
    (c.target? = none → b'.entry = true ∧ ∀ copy, copy ∉ f.copies.entryOf place) := by
  intro f behind
  have regular := Graph.build_regular code
  have entry : c.target? = none → b'.entry = true := fun direct => Graph.entry_of_names
    (Graph.mem_of_mem_build here (List.mem_of_getElem? isHere)) command direct names there leads
  have silent : p.defs = [] := by
    simp [Instr.defs, command, Command.defs, Option.isNone_iff_eq_none.1 foreign]
  have suffix : b.code.drop i = p :: b.code.drop (i + 1) := by
    rw [List.drop_eq_getElem?_toList_append, isHere]
    rfl
  have liveAt : ∀ r, r ∈ f.liveAt b i ↔ r ∈ reserved ∨ r ∈ b.usesAt i ∨ ReadFirst r behind ∨
      Unwritten r behind ∧ b.LeavesLive reserved r fun next => r ∈ f.live.entryOf next := by
    intro r
    have uses : b.usesAt i = Liveness.usesBefore b.unresolved p (b.code.drop (i + 1)) := by
      rw [Block.usesAt, suffix]
    rw [mem_liveAt regular here, suffix, Liveness.accesses, readFirst_cons, unwritten_cons, uses,
      silent]
    simp [or_assoc, behind, f]
  refine ⟨liveAt, fun goes r live => ?_, fun direct => ⟨entry direct, fun copy available => ?_⟩⟩
  · have jumps : c.isJump = true := by
      rcases goes with target | ⟨indirect, -⟩
      · exact Command.isJump_of_target? target
      · simp only [Command.isIndirect, Bool.and_eq_true] at indirect
        exact indirect.1.1.1
    obtain ⟨ends, last⟩ := Graph.jump?_of_getElem? here isHere command jumps
    have edge := Graph.mem_succ_of_goesTo here ends goes there leads entry
    have unwritten : Unwritten r behind := by simp [behind, last, Liveness.accesses]
    exact (liveAt r).2 (Or.inr (Or.inr (Or.inr ⟨unwritten, Or.inr ⟨place, edge, live⟩⟩)))
  · have must := copies_must (Graph.build code) reserved
    have meets := (must.mem_entryOf regular there).1 available
    exact ((must.mem_met_inter regular there).1 meets).1 ⟨b', there, Or.inr (Or.inl (entry direct))⟩

/-- A branch with too few operands is foreign, but still has an edge to its label, so that what is
needed there is live before it, although the code behind it overwrites that. -/
theorem foreign_label_live_branch :
    let general (n : Fin 32) := Operand.reg (.general n)
    let branch := Command.ofOpcode .beq [general 9, .sym "L"]
    let code : List Instr := [.ofCommand 1 (.loadImm (.general 8) 1), .ofCommand 2 branch,
      .ofCommand 3 (.loadImm (.general 8) 2), .ofCommand 4 (.ofOpcode .jr [.reg Reg.link]),
      ⟨5, .label "L", "", []⟩, .ofCommand 6 (.copy (.general 2) (.general 8)),
      .ofCommand 7 (.ofOpcode .jr [.reg Reg.link])]
    let f := Facts.analyze (Graph.build code) []
    branch.isForeign = true ∧ branch.GoesTo "L" ∧ Reg.general 8 ∈ f.live.entryOf 2 ∧
      ∃ b, (Graph.build code).block? 0 = some b ∧ Reg.general 8 ∈ f.liveAt b 1 := by
  intro general branch code f
  have here : (Graph.build code).block? 0 = some
      { id := 0, code := code.take 2, succ := [2, 1] } := by decide +kernel
  have there : (Graph.build code).block? 2 = some
      { id := 2, code := code.drop 4, pred := [0] } := by decide +kernel
  have goes : branch.GoesTo "L" := Or.inl (by decide)
  have needed : Reg.general 8 ∈ f.live.entryOf 2 := by decide +kernel
  refine ⟨by decide, goes, needed, _, here, ?_⟩
  have command : (Instr.ofCommand 2 branch).command? = some branch := rfl
  exact (foreign_label_live code [] here rfl command (by decide) (by decide) there rfl).2.1 goes _
    needed

/-- It is not true that all that a label needs is live before a foreign command that names it:
before a branch whose mnemonic is not known, the register that the code at its label returns is
dead. -/
theorem foreign_label_lost :
    let general (n : Fin 32) := Operand.reg (.general n)
    let branch : Command := ⟨.unknown "blt", [general 9, general 10, .sym "L"]⟩
    let code : List Instr := [.ofCommand 1 (.loadImm (.general 8) 1), .ofCommand 2 branch,
      .ofCommand 3 (.loadImm (.general 8) 2), .ofCommand 4 (.copy (.general 2) (.general 8)),
      .ofCommand 5 (.ofOpcode .jr [.reg Reg.link]), ⟨6, .label "L", "", []⟩,
      .ofCommand 7 (.copy (.general 2) (.general 8)), .ofCommand 8 (.ofOpcode .jr [.reg Reg.link])]
    let g := Graph.build code
    let f := Facts.analyze g []
    branch.isForeign = true ∧ (g.block? 1).bind Block.label? = some "L" ∧
      Reg.general 8 ∈ f.live.entryOf 1 ∧
      ∃ b, g.block? 0 = some b ∧ (b.code[1]?).bind Instr.command? = some branch ∧
        Reg.general 8 ∉ f.liveAt b 1 ∧ f.deadAt b 1 (.general 8) = true := by
  intro general branch code g f
  have here : g.block? 0 = some { id := 0, code := code.take 5 } := by decide +kernel
  refine ⟨by decide, by decide +kernel, by decide +kernel, _, here, rfl, ?_, ?_⟩
  · decide +kernel
  · decide +kernel

end MipsFlow
