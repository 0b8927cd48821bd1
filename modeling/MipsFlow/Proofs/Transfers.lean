import MipsFlow.Proofs.ForeignLabels
import MipsFlow.Proofs.Partition

/-!
# Edges are the possible transfers of control

From the end of a block control goes on to the next one, unless a jump ends the block. A jump other
than a return goes to every block that its label leads, or, where a register says, to every block
whose address is taken, and a branch or a call may also go on: this is `Graph.Transfer`. The edges
of a graph are exactly these transfers, each of them listed once at both of its ends, and a block is
unresolved if it jumps to no label of the program: `edges_are_transfers`.

Linking only sees which labels lead blocks. It misses no declaration of a target all the same, since
the target of a jump is pinned, so that every declaration of it starts a block.
-/

namespace MipsFlow

namespace Graph

/-- Control may go from the end of the one block to the start of the other. -/
inductive Transfer (code : List Instr) (b c : Block) : Prop
  | falls (ends : b.jump? = none) (next : c.id = b.id + 1)
  | jumps {d : Command} {label : String} (ends : b.jump? = some d) (stays : d.isReturn = false)
      (target : d.target? = some label) (declares : label ∈ declared code)
      (leads : LedBy label c.code)
  | enters {d : Command} (ends : b.jump? = some d) (isIndirect : d.isIndirect = true)
      (noCall : d.isCall = false) (entry : c.entry = true)
  | passes {d : Command} (ends : b.jump? = some d) (comesBack : d.isBranch = true ∨ d.isCall = true)
      (next : c.id = b.id + 1)

variable {code : List Instr} {id n : Nat} {b c : Block} {d : Command} {label : String}

theorem mem_nextPlace (there : (build code).block? n = some c) :
    n ∈ nextPlace (bareBlocks code) id ↔ c.id = id + 1 := by
  have inside := lt_size_of_block? there
  rw [(build_regular code).place there, nextPlace_build]
  split
  · exact List.mem_singleton
  · rw [List.mem_nil_iff, false_iff]
    omega

theorem mem_ledBy_iff (there : (build code).block? n = some c) :
    n ∈ ledBy (bareBlocks code) label ↔ LedBy label c.code := by
  constructor
  · intro led
    obtain ⟨c', there', leads⟩ := mem_ledBy led
    cases there.symm.trans there'
    exact leads
  · exact mem_ledBy_of_leads there

theorem mem_entries_iff (there : (build code).block? n = some c) :
    n ∈ entries (bareBlocks code) ↔ c.entry = true := by
  constructor
  · intro isEntry
    obtain ⟨bare, isBare, entry⟩ := getElem?_of_mem_filter (unlinked_placed _ _) isEntry
    obtain ⟨bare', isBare', -, rfl, -⟩ := block?_build there
    cases isBare.symm.trans isBare'
    exact entry
  · exact mem_entries there

/-- A label that leads a block is declared. -/
theorem mem_declared_of_ledBy (there : (build code).block? n = some c)
    (leads : LedBy label c.code) :
    label ∈ declared code := by
  obtain ⟨p, isHead, isLabel⟩ := Option.bind_eq_some_iff.1 leads
  exact List.mem_filterMap.2 ⟨p, mem_of_mem_build there (List.mem_of_mem_head? isHead), isLabel⟩

/-- A declaration of a pinned label stands at the start of its block. -/
theorem eq_nil_of_declares {before after : List Instr} {p : Instr}
    (there : (build code).block? n = some c) (pinned : label ∈ pinnedLabels code)
    (split : c.code = before ++ p :: after) (isLabel : p.label? = some label) : before = [] := by
  obtain ⟨-, -, -, -, isRun⟩ := block?_build there
  obtain ⟨-, -, unpinned⟩ := of_mem_cut (List.mem_of_getElem? isRun)
  cases before with
  | nil => rfl
  | cons q before =>
    have free := unpinned p (by simp [split])
    rw [isPinned_iff.2 ⟨label, isLabel, pinned⟩] at free
    contradiction

/-- Where the jump that ends a block goes by its last operand. -/
theorem mem_jumpTargets_iff (there : (build code).block? n = some c) :
    n ∈ jumpTargets (bareBlocks code) d ↔
      (∃ label, d.target? = some label ∧ LedBy label c.code) ∨
      (d.isIndirect = true ∧ d.isCall = false ∧ c.entry = true) := by
  unfold jumpTargets
  cases target : d.target? with
  | some label =>
    have direct : d.isIndirect = false := Bool.eq_false_iff.2 fun indirect => by
      simp [Command.target?_of_isIndirect indirect] at target
    simp [mem_ledBy_iff there, direct]
  | none =>
    cases indirect : d.isIndirect <;> cases call : d.isCall <;> simp [mem_entries_iff there]

theorem mem_transfers_iff (there : (build code).block? n = some c) :
    n ∈ transfers (bareBlocks code) b ↔ Transfer code b c := by
  have next : n ∈ nextPlace (bareBlocks code) b.id ↔ c.id = b.id + 1 := mem_nextPlace there
  cases ends : b.jump? with
  | none =>
    rw [transfers_of_plain ends, next]
    refine ⟨.falls ends, fun transfer => ?_⟩
    cases transfer with
    | falls _ next => exact next
    | jumps ends' => cases ends.symm.trans ends'
    | enters ends' => cases ends.symm.trans ends'
    | passes ends' => cases ends.symm.trans ends'
  | some d =>
    cases returns : d.isReturn with
    | true =>
      rw [transfers_of_return ends returns, List.mem_nil_iff, false_iff]
      intro transfer
      cases transfer with
      | falls ends' => cases ends.symm.trans ends'
      | jumps ends' stays =>
        cases ends.symm.trans ends'
        simp [returns] at stays
      | enters ends' isIndirect =>
        cases ends.symm.trans ends'
        simp [Command.isIndirect_eq_false_of_isReturn returns] at isIndirect
      | passes ends' comesBack =>
        cases ends.symm.trans ends'
        simp [Command.isBranch_eq_false_of_isReturn returns, Command.isCall_of_isReturn returns]
          at comesBack
    | false =>
      rw [transfers_of_jump ends returns, List.mem_append, mem_jumpTargets_iff there]
      constructor
      · rintro ((⟨label, target, leads⟩ | ⟨indirect, noCall, entry⟩) | follows)
        · exact .jumps ends returns target (mem_declared_of_ledBy there leads) leads
        · exact .enters ends indirect noCall entry
        · split at follows
          · next comesBack => exact .passes ends (by simpa using comesBack) (next.1 follows)
          · simp at follows
      · intro transfer
        cases transfer with
        | falls ends' => cases ends.symm.trans ends'
        | @jumps _ label ends' _ target _ leads =>
          cases ends.symm.trans ends'
          exact Or.inl (Or.inl ⟨label, target, leads⟩)
        | enters ends' indirect noCall entry =>
          cases ends.symm.trans ends'
          exact Or.inl (Or.inr ⟨indirect, noCall, entry⟩)
        | passes ends' comesBack isNext =>
          cases ends.symm.trans ends'
          rw [if_pos (by simpa using comesBack)]
          exact Or.inr (next.2 isNext)

/-- A block is unresolved if a jump ends it that is no return and goes to no label of the
program. -/
theorem unresolved_iff (here : (build code).block? id = some b) :
    b.unresolved = true ↔ ∃ d, b.jump? = some d ∧ d.isReturn = false ∧
      ∀ label, d.target? = some label → label ∉ declared code := by
  rw [(succ_build here).2.2, isUnresolved, ← Block.jump?, Option.any_eq_true]
  refine exists_congr fun d => and_congr_right fun ends => ?_
  rw [Bool.and_eq_true, Bool.not_eq_true', List.isEmpty_iff]
  refine and_congr_right fun _ => ?_
  cases target : d.target? with
  | none => simp
  | some label => simp [ledBy_eq_nil_iff (pinned_of_jump here ends target)]

/-- The predecessors of a block are listed in increasing order, without repetition. -/
theorem nodup_pred (here : (build code).block? id = some b) : b.pred.Nodup := by
  obtain ⟨bare, -, -, rfl, -⟩ := block?_build here
  have sameIds : ((bareBlocks code).map (linkOut (bareBlocks code))).map Block.id =
      (bareBlocks code).map Block.id := by
    rw [List.map_map]
    rfl
  have distinct : (((bareBlocks code).map (linkOut (bareBlocks code))).map Block.id).Nodup := by
    rw [sameIds, bareBlocks, Placed.ids (unlinked_placed _ _)]
    exact List.nodup_range
  exact distinct.sublist (List.filter_sublist.map Block.id)

/-- The edges of a graph are exactly the possible transfers of control: from the end of a block that
no jump ends to the next one, from a jump to every block that its label leads, and from one to where
a register says to every block whose address is taken, unless it is a call or a return, and from a
branch or a call to the next block. Edges lead to blocks and are known at both of their ends, where
they are listed once. A block is unresolved if a jump other than a return ends it that goes to no
label of the program. Every declaration of the label that a jump goes to starts a block, and there
is an edge to it. -/
theorem edges_are_transfers (code : List Instr) {id : Nat} {b : Block}
    (here : (build code).block? id = some b) :
    (∀ n, n ∈ b.succ ↔ ∃ c, (build code).block? n = some c ∧ Transfer code b c) ∧
    (∀ n, n ∈ b.pred ↔ ∃ c, (build code).block? n = some c ∧ id ∈ c.succ) ∧
    b.succ.Nodup ∧ b.pred.Nodup ∧
    (b.unresolved = true ↔ ∃ d, b.jump? = some d ∧ d.isReturn = false ∧
      ∀ label, d.target? = some label → label ∉ declared code) ∧
    ∀ d label, b.jump? = some d → d.target? = some label →
      ∀ n c before p after, (build code).block? n = some c → c.code = before ++ p :: after →
        p.label? = some label → before = [] ∧ n ∈ b.succ := by
  have regular := build_regular code
  have edges := (succ_build here).1
  have succ : ∀ n, n ∈ b.succ ↔ ∃ c, (build code).block? n = some c ∧ Transfer code b c := by
    intro n
    constructor
    · intro edge
      obtain ⟨c, there, -⟩ := regular.succ_pred here edge
      rw [edges, List.mem_eraseDups, mem_transfers_iff there] at edge
      exact ⟨c, there, edge⟩
    · rintro ⟨c, there, transfer⟩
      rw [edges, List.mem_eraseDups]
      exact (mem_transfers_iff there).2 transfer
  refine ⟨succ, fun n => ⟨regular.pred_succ here, ?_⟩, ?_, nodup_pred here, unresolved_iff here, ?_⟩
  · rintro ⟨c, there, edge⟩
    obtain ⟨b', here', back⟩ := regular.succ_pred there edge
    cases here.symm.trans here'
    exact back
  · rw [edges]
    exact nodup_eraseDups _
  · intro d label ends target n c before p after there split isLabel
    have first := eq_nil_of_declares there (pinned_of_jump here ends target) split isLabel
    have leads : LedBy label c.code := by
      rw [LedBy, split, first]
      exact isLabel
    have declares := mem_declared_of_ledBy there leads
    have stays := Command.isReturn_of_target? target
    exact ⟨first, (succ n).2 ⟨c, there, .jumps ends stays target declares leads⟩⟩

/-- The target of a branch is declared twice, once right behind it, so that the next block is listed
once although there are two ways to it. The block that jumps to where a register says has an edge to
the one whose address a directive takes, and that is all. -/
theorem edges_are_transfers_twice :
    let code : List Instr :=
      [.ofCommand 1 (.ofOpcode .bne [.reg (.general 8), .reg Reg.zero, .sym "L"]),
        ⟨2, .label "L", "", []⟩, .ofCommand 3 (.ofOpcode .jalr [.reg (.general 9)]),
        ⟨4, .label "L", "", []⟩, .ofCommand 5 (.ofOpcode .jr [.reg (.general 8)]),
        ⟨6, .directive ".word M", "", []⟩, .ofCommand 7 (.ofOpcode .jal [.sym "ext"]),
        ⟨8, .label "M", "", []⟩, .ofCommand 9 (.ofOpcode .jr [.reg Reg.link])]
    ∃ b b', (build code).block? 0 = some b ∧ (build code).block? 2 = some b' ∧
      (∀ n, n ∈ [2, 1] ↔ ∃ c, (build code).block? n = some c ∧ Transfer code b c) ∧
      (∀ n, n = 4 ↔ ∃ c, (build code).block? n = some c ∧ Transfer code b' c) ∧
      b'.unresolved = true := by
  intro code
  have here : (build code).block? 0 = some { id := 0, code := code.take 1, succ := [1, 2] } := by
    decide +kernel
  have here' : (build code).block? 2 = some
      { id := 2, code := (code.drop 3).take 2, succ := [4], pred := [0, 1],
        unresolved := true } := by
    decide +kernel
  have edges := (edges_are_transfers code here).1
  have edges' := (edges_are_transfers code here').1
  exact ⟨_, _, here, here', fun n => by simpa [or_comm] using edges n, by simpa using edges', rfl⟩

end Graph

end MipsFlow
