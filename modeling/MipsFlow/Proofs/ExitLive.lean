import MipsFlow.Proofs.LivePaths
import MipsFlow.Proofs.Wiring

/-!
# What is live where control leaves the program

Control *leaves* the program behind a block if this returns, jumps to a label that the program does
not declare or to where a register says, or if it is the last one and need not jump. It may also
*stay*: a conditional branch has another way to go, and a jump to where a register says goes to any
block whose address is taken. The registers that are live where the program ends are live at the
exit of every block where control can only leave. Where it may also stay, the exit has what the
successors need and nothing else, so that a register the outside world sees is lost unless one of
them needs it: `exit_live_of_leaves`, and `exit_live_lost` for each of the three ways to stay.
-/

namespace MipsFlow

namespace Block

/-- The command of the jump that ends the block. -/
def jump? (b : Block) : Option Command := b.terminator?.bind Instr.command?

/-- Control can leave the program behind a block of its graph. -/
inductive Leaves (code : List Instr) (b : Block) : Prop
  | returns {c : Command} (ends : b.jump? = some c) (isReturn : c.isReturn = true)
  | away {c : Command} {label : String} (ends : b.jump? = some c) (noCall : c.isCall = false)
      (target : c.target? = some label) (undeclared : label ∉ Graph.declared code)
  | indirect {c : Command} (ends : b.jump? = some c) (noCall : c.isCall = false)
      (isIndirect : c.isIndirect = true)
  | runsOut (ends : b.jump? = none) (last : b.id + 1 = (Graph.build code).size)
  | notTaken {c : Command} (ends : b.jump? = some c) (isBranch : c.isBranch = true)
      (last : b.id + 1 = (Graph.build code).size)

/-- Control can stay in the program behind a block that ends in a branch, or in a jump to where a
register says. -/
inductive Stays (code : List Instr) (b : Block) : Prop
  | falls {c : Command} (ends : b.jump? = some c) (isBranch : c.isBranch = true)
      (next : b.id + 1 < (Graph.build code).size)
  | taken {c : Command} {label : String} (ends : b.jump? = some c) (isBranch : c.isBranch = true)
      (target : c.target? = some label) (declares : label ∈ Graph.declared code)
  | entered {c : Command} {id : Nat} {b' : Block} (ends : b.jump? = some c)
      (isIndirect : c.isIndirect = true) (there : (Graph.build code).block? id = some b')
      (entry : b'.entry = true)

theorem stays_iff {code : List Instr} {b : Block} {c : Command} (ends : b.jump? = some c) :
    b.Stays code ↔
      (c.isBranch = true ∧ (b.id + 1 < (Graph.build code).size ∨
        ∃ label, c.target? = some label ∧ label ∈ Graph.declared code)) ∨
      (c.isIndirect = true ∧
        ∃ id b', (Graph.build code).block? id = some b' ∧ b'.entry = true) := by
  constructor
  · rintro (⟨ends', isBranch, next⟩ | ⟨ends', isBranch, target, declares⟩ |
      ⟨ends', isIndirect, there, entry⟩) <;> obtain rfl := Option.some.inj (ends.symm.trans ends')
    · exact Or.inl ⟨isBranch, Or.inl next⟩
    · exact Or.inl ⟨isBranch, Or.inr ⟨_, target, declares⟩⟩
    · exact Or.inr ⟨isIndirect, _, _, there, entry⟩
  · rintro (⟨isBranch, next | ⟨label, target, declares⟩⟩ | ⟨isIndirect, id, b', there, entry⟩)
    · exact .falls ends isBranch next
    · exact .taken ends isBranch target declares
    · exact .entered ends isIndirect there entry

end Block

namespace Command

variable {c : Command}

theorem isBranch_eq_false_of_isReturn (returns : c.isReturn = true) : c.isBranch = false := by
  have op : c.op? = some .jr ∨ c.op? = some .j := by
    simp only [isReturn, Bool.and_eq_true, Bool.or_eq_true, decide_eq_true_eq] at returns
    exact returns.1
  rcases op with op | op <;> rw [isBranch, has, op] <;> decide

theorem isIndirect_eq_false_of_isReturn (returns : c.isReturn = true) : c.isIndirect = false := by
  simp [isIndirect, returns]

theorem isIndirect_eq_false_of_isBranch (branch : c.isBranch = true) : c.isIndirect = false := by
  simp [isIndirect, branch]

theorem target?_of_isReturn (returns : c.isReturn = true) : c.target? = none := by
  simp only [isReturn, Bool.and_eq_true, decide_eq_true_eq] at returns
  simp [target?, returns.2]

theorem target?_of_isIndirect (indirect : c.isIndirect = true) : c.target? = none := by
  unfold isIndirect at indirect
  unfold target?
  split at indirect
  · next isLast => simp [isLast]
  · simp at indirect

end Command

namespace Graph

variable {code : List Instr} {id : Nat} {b : Block} {c : Command} {label : String}

/-- The label that a block of the graph jumps to is pinned. -/
theorem pinned_of_jump (here : (build code).block? id = some b) (ends : b.jump? = some c)
    (target : c.target? = some label) : label ∈ pinnedLabels code :=
  mem_pinnedLabels (exit_mem_of_terminates here ends) target

/-- A pinned label leads a block if it is declared. -/
theorem ledBy_eq_nil_iff (pinned : label ∈ pinnedLabels code) :
    ledBy (bareBlocks code) label = [] ↔ label ∉ declared code := by
  constructor
  · intro none declares
    obtain ⟨place, isPlace, -⟩ := startsAt_build pinned declares
    simp [placeOf, none] at isPlace
  · intro undeclared
    refine List.eq_nil_iff_forall_not_mem.2 fun id led => undeclared ?_
    obtain ⟨b, here, leads⟩ := mem_ledBy led
    obtain ⟨p, isHead, isLabel⟩ := Option.bind_eq_some_iff.1 leads
    have inside : p ∈ code := flatten_build code ▸ mem_flatten here (List.mem_of_mem_head? isHead)
    exact List.mem_filterMap.2 ⟨p, inside, isLabel⟩

/-- An indirect jump has somewhere to go if the address of some block is taken. -/
theorem entries_eq_nil_iff (code : List Instr) :
    entries (bareBlocks code) = [] ↔
      ∀ id b, (build code).block? id = some b → b.entry = false := by
  simp only [entries, List.map_eq_nil_iff, List.filter_eq_nil_iff, Bool.not_eq_true]
  constructor
  · intro none id b here
    obtain ⟨bare, isBare, -, rfl, -⟩ := block?_build here
    exact none bare (List.mem_of_getElem? isBare)
  · intro none bare member
    obtain ⟨id, isBare⟩ := List.mem_iff_getElem?.1 member
    refine none id (linkIn (bareBlocks code) bare) ?_
    have linked : (link (bareBlocks code))[id]? = some (linkIn (bareBlocks code) bare) := by
      rw [link_eq, List.getElem?_map, isBare]
      rfl
    exact linked

theorem nextPlace_eq_nil_iff : nextPlace (bareBlocks code) id = [] ↔
    ¬ id + 1 < (build code).size := by
  rw [nextPlace_build]
  split <;> simp_all

/-- Where control can leave, the block has successors if it can also stay. -/
theorem succ_eq_nil_iff (here : (build code).block? id = some b) (leaves : b.Leaves code) :
    b.succ = [] ↔ ¬ b.Stays code := by
  obtain ⟨edges, -, -⟩ := succ_build here
  have edges : b.succ = [] ↔ transfers (bareBlocks code) b = [] := by
    simp [List.eq_nil_iff_forall_not_mem, edges, List.mem_eraseDups]
  rw [edges]
  cases leaves with
  | @returns c ends isReturn =>
    simp [transfers_of_return ends isReturn, Block.stays_iff ends,
      Command.isBranch_eq_false_of_isReturn isReturn,
      Command.isIndirect_eq_false_of_isReturn isReturn]
  | @away c label ends noCall target undeclared =>
    have direct : c.isIndirect = false := Bool.eq_false_iff.2 fun indirect => by
      simp [Command.target?_of_isIndirect indirect] at target
    have returns : c.isReturn = false := Bool.eq_false_iff.2 fun returns => by
      simp [Command.target?_of_isReturn returns] at target
    have nowhere := (ledBy_eq_nil_iff (pinned_of_jump here ends target)).2 undeclared
    rw [transfers_of_jump ends returns]
    cases branch : c.isBranch <;>
      simp [jumpTargets, target, nowhere, noCall, branch, Block.stays_iff ends, direct, undeclared,
        nextPlace_eq_nil_iff]
  | @indirect c ends noCall isIndirect =>
    have returns : c.isReturn = false := Bool.eq_false_iff.2 fun returns => by
      simp [Command.isIndirect_eq_false_of_isReturn returns] at isIndirect
    have branch : c.isBranch = false := Bool.eq_false_iff.2 fun branch => by
      simp [Command.isIndirect_eq_false_of_isBranch branch] at isIndirect
    rw [transfers_of_jump ends returns]
    simp [jumpTargets, Command.target?_of_isIndirect isIndirect, noCall, branch,
      Block.stays_iff ends, isIndirect, entries_eq_nil_iff]
  | runsOut ends last =>
    have isLast : ¬ b.id + 1 < (build code).size := by omega
    have leavesOnly : ¬ b.Stays code := by
      rintro (⟨ends', -, -⟩ | ⟨ends', -, -, -⟩ | ⟨ends', -, -, -⟩) <;> cases ends.symm.trans ends'
    simp [transfers_of_plain ends, nextPlace_eq_nil_iff, isLast, leavesOnly]
  | @notTaken c ends isBranch last =>
    have returns : c.isReturn = false := Bool.eq_false_iff.2 fun returns => by
      simp [Command.isBranch_eq_false_of_isReturn returns] at isBranch
    have direct := Command.isIndirect_eq_false_of_isBranch isBranch
    have isLast : ¬ b.id + 1 < (build code).size := by omega
    rw [transfers_of_jump ends returns]
    cases target : c.target? with
    | none =>
      simp [jumpTargets, target, isBranch, Block.stays_iff ends, direct, isLast,
        nextPlace_eq_nil_iff]
    | some label =>
      have led := ledBy_eq_nil_iff (pinned_of_jump here ends target)
      simp [jumpTargets, target, isBranch, Block.stays_iff ends, direct, isLast, led,
        nextPlace_eq_nil_iff]

end Graph

/-- At the exit of a block behind which control can leave the program, exactly what is live where
the program ends is live if control cannot stay; if it can, exactly what the successors need is. -/
theorem exit_live_of_leaves (code : List Instr) (reserved : List Reg) {id : Nat} {b : Block}
    (here : (Graph.build code).block? id = some b) (leaves : b.Leaves code) (r : Reg) :
    (¬ b.Stays code → (r ∈ (Facts.analyze (Graph.build code) reserved).live.exitOf id ↔
      r ∈ Liveness.atExit reserved)) ∧
    (b.Stays code → (r ∈ (Facts.analyze (Graph.build code) reserved).live.exitOf id ↔
      ∃ next ∈ b.succ, r ∈ (Facts.analyze (Graph.build code) reserved).live.entryOf next)) := by
  have regular := Graph.build_regular code
  have edges := Graph.succ_eq_nil_iff here leaves
  rw [mem_exitOf regular here]
  refine ⟨fun leavesOnly => ?_, fun stays => ?_⟩
  · have none : b.succ = [] := edges.2 leavesOnly
    simp [Block.LeavesLive, none]
  · have some : b.succ ≠ [] := fun none => edges.1 none stays
    exact or_iff_right fun ends => some ends.1

/-- Behind a return and behind a jump to an undeclared label, exactly what is live where the program
ends is live. -/
theorem exit_live_of_leaves_tail :
    let code : List Instr := [.ofCommand 1 (.loadImm (.general 16) 1),
      .ofCommand 2 (.ofOpcode .j [.sym "ext"]), .ofCommand 3 (.ofOpcode .jr [.reg Reg.link])]
    let live := (Facts.analyze (Graph.build code) []).live
    ∀ r, (r ∈ live.exitOf 0 ↔ r ∈ Liveness.atExit []) ∧
      (r ∈ live.exitOf 1 ↔ r ∈ Liveness.atExit []) := by
  intro code live r
  let b : Block := { id := 0, code := code.take 2, unresolved := true }
  let b' : Block := { id := 1, code := code.drop 2 }
  have here : (Graph.build code).block? 0 = some b := by decide +kernel
  have here' : (Graph.build code).block? 1 = some b' := by decide +kernel
  have leaves : b.Leaves code := .away rfl rfl rfl (by decide)
  have leaves' : b'.Leaves code := .returns rfl rfl
  exact ⟨(exit_live_of_leaves code [] here leaves r).1 ((Graph.succ_eq_nil_iff here leaves).1 rfl),
    (exit_live_of_leaves code [] here' leaves' r).1 ((Graph.succ_eq_nil_iff here' leaves').1 rfl)⟩

/-- Control can leave behind a branch to an undeclared label, behind a jump to where a register
says, and behind a branch in the last block that is not taken. In each of these programs a register
that is live where the program ends is not live there. -/
theorem exit_live_lost :
    let general (n : Fin 32) := Operand.reg (.general n)
    let keeps := Instr.ofCommand 1 (.loadImm (.general 16) 1)
    let away : List Instr := [keeps,
      .ofCommand 2 (.ofOpcode .beq [general 8, general 9, .sym "ext"]),
      .ofCommand 3 (.loadImm (.general 16) 2), .ofCommand 4 (.ofOpcode .jr [.reg Reg.link])]
    let indirect : List Instr := [⟨2, .label "L", "", []⟩, keeps,
      .ofCommand 3 (.ofOpcode .jr [general 8]), ⟨4, .directive ".word L", "", []⟩]
    let last : List Instr := [⟨2, .label "L", "", []⟩, keeps,
      .ofCommand 3 (.ofOpcode .bne [general 8, general 9, .sym "L"])]
    Reg.general 16 ∈ Liveness.atExit [] ∧
      ∀ code ∈ [away, indirect, last], ∃ b, (Graph.build code).block? 0 = some b ∧ b.Leaves code ∧
        Reg.general 16 ∉ (Facts.analyze (Graph.build code) []).live.exitOf 0 := by
  intro general keeps away indirect last
  refine ⟨by decide, ?_⟩
  simp only [List.forall_mem_cons, List.not_mem_nil, false_imp_iff, implies_true, and_true]
  refine ⟨⟨{ id := 0, code := away.take 2, succ := [1], unresolved := true }, ?_, ?_, ?_⟩,
    ⟨{ id := 0, code := indirect.take 3, succ := [0], pred := [0], entry := true
       unresolved := true }, ?_, ?_, ?_⟩,
    ⟨{ id := 0, code := last, succ := [0], pred := [0] }, ?_, ?_, ?_⟩⟩
  · decide +kernel
  · exact .away rfl rfl rfl (by decide)
  · decide +kernel
  · decide +kernel
  · exact .indirect rfl rfl rfl
  · decide +kernel
  · decide +kernel
  · exact .notTaken rfl rfl (by decide +kernel)
  · decide +kernel

end MipsFlow
