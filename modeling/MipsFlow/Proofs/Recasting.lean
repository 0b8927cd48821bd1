import MipsFlow.Proofs.Linking
import MipsFlow.Proofs.Rework

/-!
# Graphs of recast code

When a graph is built, an instruction counts by its label, by the labels whose address it takes, and
by the way it leaves a block. Whatever else happens to instructions, the graph is built in the same
way: cutting and linking commute with every change of instructions that leaves these alone
(`Graph.build_recast`).
-/

namespace MipsFlow

/-- How a command leaves a block, and whether it goes where a register says. -/
def Command.route (c : Command) : Exit × Bool := (c.exit, c.isIndirect)

/-- A change of instructions that the builder of graphs does not see. -/
structure Recast where
  instr : Instr → Instr
  command : Command → Command
  command? : ∀ p, (instr p).command? = p.command?.map command
  label? : ∀ p, (instr p).label? = p.label?
  addressTaken : ∀ labels p, Graph.addressTaken labels (instr p) = Graph.addressTaken labels p
  route : ∀ c, (command c).route = c.route

namespace Recast

variable (φ : Recast) (c : Command) (p : Instr)

theorem exit_command : (φ.command c).exit = c.exit := congrArg Prod.fst (φ.route c)

@[simp] theorem isIndirect_command : (φ.command c).isIndirect = c.isIndirect :=
  congrArg Prod.snd (φ.route c)

@[simp] theorem target?_command : (φ.command c).target? = c.target? :=
  congrArg Exit.target? (φ.exit_command c)

@[simp] theorem isReturn_command : (φ.command c).isReturn = c.isReturn :=
  congrArg Exit.returns (φ.exit_command c)

theorem has_command (t : Trait) : (φ.command c).has t = c.has t := by
  have op : (φ.command c).op? = c.op? := congrArg Exit.op? (φ.exit_command c)
  unfold Command.has
  rw [op]

@[simp] theorem isJump_command : (φ.command c).isJump = c.isJump := φ.has_command c .jump

@[simp] theorem isCall_command : (φ.command c).isCall = c.isCall := φ.has_command c .call

@[simp] theorem isBranch_command : (φ.command c).isBranch = c.isBranch :=
  φ.has_command c .conditional

@[simp] theorem isJump_instr : (φ.instr p).isJump = p.isJump := by
  unfold Instr.isJump Instr.isCommandWith
  rw [φ.command?]
  cases p.command? with
  | none => rfl
  | some c => exact φ.isJump_command c

@[simp] theorem target?_instr : (φ.instr p).target? = p.target? := by
  simp [Instr.target?, φ.command?, Option.bind_map]

end Recast

/-- The block with its instructions recast. -/
def Block.recast (φ : Recast) (b : Block) : Block := { b with code := b.code.map φ.instr }

/-- The graph with its instructions recast. -/
def Graph.recast (φ : Recast) (g : Graph) : Graph := ⟨g.blocks.map (Block.recast φ)⟩

namespace Block

variable (φ : Recast) (b : Block)

@[simp] theorem id_recast : (b.recast φ).id = b.id := rfl

@[simp] theorem code_recast : (b.recast φ).code = b.code.map φ.instr := rfl

@[simp] theorem entry_recast : (b.recast φ).entry = b.entry := rfl

@[simp] theorem label?_recast : (b.recast φ).label? = b.label? := by
  unfold label?
  rw [code_recast]
  cases b.code with
  | nil => rfl
  | cons p rest => exact φ.label? p

theorem terminator?_recast :
    (b.recast φ).terminator?.bind Instr.command? =
      (b.terminator?.bind Instr.command?).map φ.command := by
  unfold terminator?
  rw [code_recast, List.getLast?_map]
  cases b.code.getLast? with
  | none => rfl
  | some p => cases isJump : p.isJump <;> simp [Option.filter, isJump, φ.command?]

end Block

namespace Graph

variable (φ : Recast)

@[simp] theorem flatten_recast (g : Graph) : (g.recast φ).flatten = g.flatten.map φ.instr := by
  unfold flatten recast
  rw [List.flatMap_map, List.map_flatMap]
  rfl

theorem declared_recast (code : List Instr) : declared (code.map φ.instr) = declared code := by
  unfold declared
  rw [List.filterMap_map]
  exact List.filterMap_congr fun p _ => φ.label? p

theorem entryLabels_recast (code : List Instr) :
    entryLabels (code.map φ.instr) = entryLabels code := by
  unfold entryLabels
  rw [declared_recast, List.flatMap_map]
  exact List.flatMap_congr fun p _ => φ.addressTaken _ p

theorem pinnedLabels_recast (code : List Instr) :
    pinnedLabels (code.map φ.instr) = pinnedLabels code := by
  unfold pinnedLabels
  rw [entryLabels_recast, List.filterMap_map]
  congr 1
  exact List.filterMap_congr fun p _ => φ.target?_instr p

theorem cut_recast (pins : List String) (code : List Instr) :
    cut pins (code.map φ.instr) = (cut pins code).map (List.map φ.instr) := by
  induction code with
  | nil => rfl
  | cons p rest ih =>
    rw [List.map_cons, cut, cut, ih]
    cases cut pins rest with
    | nil => rfl
    | cons run runs =>
      have leads : (run.map φ.instr).head?.any (isPinned pins) =
          run.head?.any (isPinned pins) := by
        rw [List.head?_map, Option.any_map]
        congr 1
        funext p
        exact congrArg (Option.any pins.contains) (φ.label? p)
      simp only [List.map_cons, leads, φ.isJump_instr]
      split <;> rfl

theorem unlinked_recast (names : List String) (runs : List (List Instr)) :
    unlinked names (runs.map (List.map φ.instr)) = (unlinked names runs).map (Block.recast φ) := by
  unfold unlinked
  rw [List.zipIdx_map, List.map_map, List.map_map]
  refine List.map_congr_left fun (code, id) _ => ?_
  have label : ({ id, code := code.map φ.instr } : Block).label? =
      ({ id, code } : Block).label? := Block.label?_recast φ { id, code }
  simp [Block.recast, label]

theorem ledBy_recast (blocks : List Block) :
    ledBy (blocks.map (Block.recast φ)) = ledBy blocks := by
  funext label
  simp [ledBy, List.filter_map, Function.comp_def]

theorem jumpTargets_recast (blocks : List Block) (c : Command) :
    jumpTargets (blocks.map (Block.recast φ)) (φ.command c) = jumpTargets blocks c := by
  have entry : entries (blocks.map (Block.recast φ)) = entries blocks := by
    simp [entries, List.filter_map, Function.comp_def]
  simp only [jumpTargets, φ.target?_command, φ.isIndirect_command, φ.isCall_command, entry,
    ledBy_recast]

theorem transfers_recast (blocks : List Block) (b : Block) :
    transfers (blocks.map (Block.recast φ)) (b.recast φ) = transfers blocks b := by
  have next : nextPlace (blocks.map (Block.recast φ)) (b.recast φ).id =
      nextPlace blocks b.id := by
    simp [nextPlace]
  unfold transfers
  rw [Block.terminator?_recast]
  cases b.terminator?.bind Instr.command? with
  | none => exact next
  | some c =>
    simp only [Option.map_some, φ.isReturn_command, φ.isCall_command, φ.isBranch_command, next,
      jumpTargets_recast]

theorem isUnresolved_recast (blocks : List Block) (b : Block) :
    isUnresolved (blocks.map (Block.recast φ)) (b.recast φ) = isUnresolved blocks b := by
  unfold isUnresolved
  rw [Block.terminator?_recast]
  cases b.terminator?.bind Instr.command? with
  | none => rfl
  | some c =>
    simp only [Option.map_some, Option.any_some, φ.isReturn_command, φ.target?_command,
      ledBy_recast]

theorem link_recast (blocks : List Block) :
    link (blocks.map (Block.recast φ)) = (link blocks).map (Block.recast φ) := by
  have out : ∀ b : Block, linkOut (blocks.map (Block.recast φ)) (b.recast φ) =
      (linkOut blocks b).recast φ := by
    intro b
    unfold linkOut
    simp only [transfers_recast, isUnresolved_recast]
    rfl
  have linked : (blocks.map (Block.recast φ)).map (linkOut (blocks.map (Block.recast φ))) =
      (blocks.map (linkOut blocks)).map (Block.recast φ) := by
    rw [List.map_map, List.map_map]
    exact List.map_congr_left fun b _ => out b
  rw [link_eq, link_eq, List.map_map, List.map_map]
  refine List.map_congr_left fun b _ => ?_
  simp only [Function.comp_apply, linkIn, out, linked, List.filter_map, List.map_map]
  rfl

/-- The graph of recast code is the recast graph. -/
theorem build_recast (code : List Instr) :
    build (code.map φ.instr) = (build code).recast φ := by
  unfold build
  rw [entryLabels_recast, pinnedLabels_recast, cut_recast, unlinked_recast, link_recast]
  rfl

/-- A graph can be told from its recast blocks and its program. -/
theorem eq_of_recast {g g' : Graph} (recast : g'.recast φ = g.recast φ)
    (flatten : g'.flatten = g.flatten) : g' = g := by
  have blocks (a b : List Block) (recast : b.map (Block.recast φ) = a.map (Block.recast φ))
      (flatten : b.flatMap Block.code = a.flatMap Block.code) : b = a := by
    induction a generalizing b with
    | nil => simpa using recast
    | cons x a ih =>
      cases b with
      | nil => simp at recast
      | cons y b =>
        obtain ⟨here, later⟩ := List.cons.inj recast
        have length : y.code.length = x.code.length := by
          simpa using congrArg (fun b : Block => b.code.length) here
        obtain ⟨code, rest⟩ := List.append_inj flatten length
        rw [ih b later rest]
        obtain ⟨xId, xCode, xSucc, xPred, xEntry, xUnresolved⟩ := x
        obtain ⟨yId, yCode, ySucc, yPred, yEntry, yUnresolved⟩ := y
        simp only [Block.recast, Block.mk.injEq] at here code
        obtain ⟨rfl, -, rfl, rfl, rfl, rfl⟩ := here
        rw [code]
  exact congrArg Graph.mk (blocks g.blocks g'.blocks (Graph.mk.inj recast) flatten)

/-- Code that is recast like the program of a graph has a graph that is recast like it. So a graph
that differs from a built one in nothing that the builder sees is built as well. -/
theorem build_flatten_of_recast {g : Graph} {code : List Instr}
    (recast : g.recast φ = (build code).recast φ) : build g.flatten = g := by
  refine eq_of_recast φ ?_ (flatten_build _)
  rw [← build_recast, ← flatten_recast, recast, flatten_recast, flatten_build, build_recast]

end Graph

end MipsFlow
