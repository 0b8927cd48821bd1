import MipsFlow.Graph.Build
import MipsFlow.Proofs.Solver

/-!
# The edges of a built graph

Cutting and linking give a regular graph: `build_regular`. Exchanging the code of a block keeps
all the rest of the graph: `block?_setCode`.
-/

namespace MipsFlow

namespace Graph

/-! ## Exchanging code -/

variable {g : Graph} {id other : Nat} {code : List Instr} {b : Block}

theorem block?_setCode : (g.setCode id code).block? other =
    (g.block? other).map fun b => if other = id then { b with code } else b := by
  unfold Graph.setCode Graph.block?
  rw [List.getElem?_modify]
  by_cases same : id = other
  · subst same
    simp
  · simp [same, Ne.symm same]

/-- The code of the block that was exchanged. -/
theorem block?_setCode_self (here : g.block? id = some b) :
    (g.setCode id code).block? id = some { b with code } := by
  simp [block?_setCode, here]

/-- The other blocks stay. -/
theorem block?_setCode_of_ne (elsewhere : other ≠ id) :
    (g.setCode id code).block? other = g.block? other := by
  rw [block?_setCode]
  cases g.block? other <;> simp [elsewhere]

/-- A block is the one whose code was exchanged, or one of the others. -/
theorem block?_setCode_cases {c : Block} (here : g.block? id = some b)
    (there : (g.setCode id code).block? other = some c) :
    (other = id ∧ c = { b with code }) ∨ (other ≠ id ∧ g.block? other = some c) := by
  by_cases isHere : other = id
  · subst isHere
    rw [block?_setCode_self here] at there
    exact Or.inl ⟨rfl, (Option.some.inj there).symm⟩
  · rw [block?_setCode_of_ne isHere] at there
    exact Or.inr ⟨isHere, there⟩

/-- What holds between every block and itself, and between the block and what it becomes, holds
between the blocks at every place. -/
theorem setCode_related {R : Nat → Block → Block → Prop} (here : g.block? id = some b)
    (changed : R id b { b with code }) (refl : ∀ place c, R place c c) {c c' : Block}
    (isOld : g.block? other = some c) (isNew : (g.setCode id code).block? other = some c') :
    R other c c' := by
  rcases block?_setCode_cases here isNew with ⟨rfl, rfl⟩ | ⟨-, same⟩
  · cases here.symm.trans isOld
    exact changed
  · cases isOld.symm.trans same
    exact refl other c

/-- Putting back the code that is there changes nothing. -/
theorem setCode_self (here : g.block? id = some b) : g.setCode id b.code = g := by
  have same : ∀ n, (g.setCode id b.code).block? n = g.block? n := by
    intro n
    by_cases isHere : n = id
    · subst isHere
      rw [block?_setCode_self here, here]
    · exact block?_setCode_of_ne isHere
  have blocks : (g.setCode id b.code).blocks = g.blocks := List.ext_getElem? same
  exact congrArg Graph.mk blocks

/-- A block is a part of the program, and exchanging its code leaves the rest. -/
theorem flatten_split (here : g.block? id = some b) : ∃ before after,
    g.flatten = before ++ b.code ++ after ∧
      ∀ code, (g.setCode id code).flatten = before ++ code ++ after := by
  obtain ⟨inside, rfl⟩ := List.getElem?_eq_some_iff.1 here
  refine ⟨(g.blocks.take id).flatMap Block.code, (g.blocks.drop (id + 1)).flatMap Block.code, ?_,
    fun code => ?_⟩
  · rw [List.append_assoc, ← List.flatMap_cons, ← List.drop_eq_getElem_cons inside,
      ← List.flatMap_append, List.take_append_drop]
    rfl
  · rw [setCode, flatten, List.modify_eq_take_cons_drop inside, List.flatMap_append,
      List.flatMap_cons, List.append_assoc]

/-- The instructions of a block are instructions of the graph. -/
theorem mem_flatten {p : Instr} (here : g.block? id = some b) (inside : p ∈ b.code) :
    p ∈ g.flatten :=
  List.mem_flatMap.2 ⟨b, List.mem_of_getElem? here, inside⟩

theorem exists_block_of_mem_flatten {p : Instr} (member : p ∈ g.flatten) :
    ∃ id b, g.block? id = some b ∧ p ∈ b.code := by
  obtain ⟨b, isBlock, inside⟩ := List.mem_flatMap.1 member
  obtain ⟨id, here⟩ := List.mem_iff_getElem?.1 isBlock
  exact ⟨id, b, here, inside⟩

/-- What holds of every instruction of the graph. -/
def All (g : Graph) (P : Instr → Prop) : Prop :=
  ∀ {id : Nat} {b : Block}, g.block? id = some b → ∀ p ∈ b.code, P p

theorem all_iff {P : Instr → Prop} : g.All P ↔ ∀ p ∈ g.flatten, P p := by
  constructor
  · intro all p member
    obtain ⟨id, b, here, inside⟩ := exists_block_of_mem_flatten member
    exact all here p inside
  · intro all id b here p inside
    exact all p (mem_flatten here inside)

theorem All.setCode {P : Instr → Prop} (all : g.All P) (here : g.block? id = some b)
    (now : ∀ p ∈ code, P p) : (g.setCode id code).All P := by
  intro other c there
  rcases block?_setCode_cases here there with ⟨-, rfl⟩ | ⟨-, isOld⟩
  · exact now
  · exact all isOld

/-! ## Linking -/

theorem nodup_eraseDups : ∀ places : List Nat, places.eraseDups.Nodup
  | [] => List.nodup_nil
  | place :: places => by
    rw [List.eraseDups_cons]
    have others := nodup_eraseDups (places.filter fun other => !other == place)
    refine List.nodup_cons.2 ⟨fun again => ?_, others⟩
    simp [List.mem_eraseDups] at again
termination_by places => places.length
decreasing_by exact Nat.lt_succ_of_le (List.length_filter_le ..)

/-- The blocks stand at their places. -/
def Placed (blocks : List Block) : Prop :=
  ∀ (id : Nat) (b : Block), blocks[id]? = some b → b.id = id

/-- A block with its edges, before the predecessors are known. -/
def linkOut (blocks : List Block) (b : Block) : Block :=
  { b with succ := (transfers blocks b).eraseDups, unresolved := isUnresolved blocks b }

/-- A block with all its edges. -/
def linkIn (blocks : List Block) (b : Block) : Block :=
  { linkOut blocks b with
    pred := ((blocks.map (linkOut blocks)).filter fun a => a.succ.contains b.id).map Block.id }

theorem link_eq (blocks : List Block) : link blocks = blocks.map (linkIn blocks) := by
  unfold link
  rw [List.map_map]
  rfl

variable {blocks : List Block}

theorem Placed.ids (placed : Placed blocks) : blocks.map Block.id = List.range blocks.length := by
  refine List.ext_getElem? fun id => ?_
  rw [List.getElem?_map]
  cases here : blocks[id]? with
  | none => simpa using here
  | some b =>
    have inside := (List.getElem?_eq_some_iff.1 here).1
    rw [Option.map_some, placed id b here, List.getElem?_range inside]

theorem getElem?_of_mem_filter (placed : Placed blocks) {keep : Block → Bool}
    (member : id ∈ (blocks.filter keep).map Block.id) :
    ∃ b, blocks[id]? = some b ∧ keep b = true := by
  obtain ⟨b, kept, rfl⟩ := List.mem_map.1 member
  obtain ⟨present, keeps⟩ := List.mem_filter.1 kept
  obtain ⟨place, here⟩ := List.mem_iff_getElem?.1 present
  rw [placed place b here]
  exact ⟨b, here, keeps⟩

/-! Where control goes from the end of a block, by the command of its terminator. -/

theorem transfers_of_plain (ends : b.terminator?.bind Instr.command? = none)
    (blocks : List Block) : transfers blocks b = nextPlace blocks b.id := by
  rw [transfers, ends]

theorem transfers_of_return {c : Command} (ends : b.terminator?.bind Instr.command? = some c)
    (returns : c.isReturn = true) (blocks : List Block) : transfers blocks b = [] := by
  rw [transfers, ends]
  exact if_pos returns

theorem transfers_of_jump {c : Command} (ends : b.terminator?.bind Instr.command? = some c)
    (stays : c.isReturn = false) (blocks : List Block) :
    transfers blocks b = jumpTargets blocks c ++
      if c.isBranch || c.isCall then nextPlace blocks b.id else [] := by
  simp [transfers, ends, stays]

theorem lt_length_of_mem_transfers (placed : Placed blocks)
    (transfer : id ∈ transfers blocks b) : id < blocks.length := by
  have inside : ∀ {keep : Block → Bool}, id ∈ (blocks.filter keep).map Block.id →
      id < blocks.length := by
    intro keep member
    obtain ⟨c, here, -⟩ := getElem?_of_mem_filter placed member
    exact (List.getElem?_eq_some_iff.1 here).1
  have next : id ∈ nextPlace blocks b.id → id < blocks.length := by
    intro follows
    unfold nextPlace at follows
    split at follows
    · rw [List.mem_singleton.1 follows]
      assumption
    · simp at follows
  unfold transfers at transfer
  split at transfer
  · exact next transfer
  · next c _ =>
    split at transfer
    · simp at transfer
    · rcases List.mem_append.1 transfer with jump | falls
      · unfold jumpTargets at jump
        split at jump
        · exact inside jump
        · split at jump
          · exact inside jump
          · simp at jump
      · split at falls
        · exact next falls
        · simp at falls

/-- Linking blocks at their places gives a regular graph. -/
theorem link_regular (placed : Placed blocks) : Regular ⟨link blocks⟩ := by
  have linked : ∀ {id : Nat} {b : Block}, Graph.block? ⟨link blocks⟩ id = some b →
      ∃ bare, blocks[id]? = some bare ∧ linkIn blocks bare = b := by
    intro id b here
    simpa only [Graph.block?, link_eq, List.getElem?_map, Option.map_eq_some_iff] using here
  have present : ∀ {id : Nat} {bare : Block}, blocks[id]? = some bare →
      Graph.block? ⟨link blocks⟩ id = some (linkIn blocks bare) := by
    intro id bare here
    simp [Graph.block?, link_eq, here]
  refine ⟨?_, ?_, ?_⟩
  · intro id b here
    obtain ⟨bare, isBare, rfl⟩ := linked here
    exact placed id bare isBare
  · intro id next b here edge
    obtain ⟨bare, isBare, rfl⟩ := linked here
    have inside := lt_length_of_mem_transfers placed (List.mem_eraseDups.1 edge)
    have isAfter := List.getElem?_eq_getElem inside
    refine ⟨_, present isAfter, ?_⟩
    refine List.mem_map.2 ⟨linkOut blocks bare, List.mem_filter.2 ⟨?_, ?_⟩, placed id bare isBare⟩
    · exact List.mem_map.2 ⟨bare, List.mem_of_getElem? isBare, rfl⟩
    · rw [placed next _ isAfter]
      exact List.contains_iff_mem.2 edge
  · intro id last b here edge
    obtain ⟨bare, isBare, rfl⟩ := linked here
    obtain ⟨before, kept, rfl⟩ := List.mem_map.1 edge
    obtain ⟨isLinked, edges⟩ := List.mem_filter.1 kept
    obtain ⟨bareBefore, member, rfl⟩ := List.mem_map.1 isLinked
    obtain ⟨place, isBefore⟩ := List.mem_iff_getElem?.1 member
    have isPlace : (linkOut blocks bareBefore).id = place := placed place bareBefore isBefore
    rw [isPlace]
    refine ⟨_, present isBefore, ?_⟩
    rw [placed id bare isBare] at edges
    exact List.contains_iff_mem.1 edges

theorem unlinked_placed (names : List String) (runs : List (List Instr)) :
    Placed (unlinked names runs) := by
  intro id b here
  unfold unlinked at here
  simp only [List.getElem?_map, List.getElem?_zipIdx, Option.map_map,
    Option.map_eq_some_iff] at here
  obtain ⟨code, -, rfl⟩ := here
  simp

/-- Cutting loses nothing. -/
theorem flatten_cut (pins : List String) (code : List Instr) : (cut pins code).flatten = code := by
  induction code with
  | nil => rfl
  | cons p rest ih =>
    unfold cut
    split
    · next none =>
      rw [none] at ih
      simpa using ih
    · next run runs more =>
      rw [more] at ih
      split <;> simpa using ih

/-- The blocks of a graph hold the runs of the cut. -/
theorem code_build (code : List Instr) :
    (build code).blocks.map Block.code = cut (pinnedLabels code) code := by
  unfold build unlinked
  rw [link_eq, List.map_map, List.map_map]
  exact List.zipIdx_map_fst 0 _

/-- The blocks of a graph hold the instructions in order. -/
theorem flatten_build (code : List Instr) : (build code).flatten = code := by
  unfold Graph.flatten
  rw [List.flatMap_def, code_build, flatten_cut]

/-- The instructions of a block come from the program. -/
theorem mem_of_mem_build {p : Instr} (here : (build code).block? id = some b)
    (inside : p ∈ b.code) : p ∈ code :=
  flatten_build code ▸ mem_flatten here inside

theorem build_regular (code : List Instr) : (build code).Regular :=
  link_regular (unlinked_placed _ _)

end Graph

end MipsFlow
