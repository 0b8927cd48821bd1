import Mathlib.Data.Set.Card
import MipsFlow.Proofs.Attempts.Graphs

/-!
# What the shape of a graph counts

A graph is described by how many blocks its first block reaches, how many edges it has, and how many
loops: strongly connected components of several blocks, and edges from a block to itself. The
numbers are those of the sets they stand for (`Graph.shape_exact`).

The blocks that can be reached are collected until nothing is new, which the number of steps allows,
because each of them but the last finds a block (`closure_closed`). A component of several blocks
is counted at its first block (`components_eq`). Both could as well be done in a drawing of the
graph without the edges from a block to itself, since no path needs them (`reaches_drawing`).
-/

namespace MipsFlow

namespace Graph

variable {g : Graph} {succ : Nat → List Nat} {seen : List Nat} {a b n steps : Nat}

/-! ## Edges and paths -/

/-- There is an edge from the one block to the other. -/
def Edge (g : Graph) (a b : Nat) : Prop := b ∈ g.succ a

/-- The one block can be reached from the other along edges. -/
def Reaches (g : Graph) : Nat → Nat → Prop := Relation.ReflTransGen g.Edge

/-- Each of the two blocks can be reached from the other. -/
def Connected (g : Graph) (a b : Nat) : Prop := g.Reaches a b ∧ g.Reaches b a

/-- The blocks that are connected to a block. -/
def component (g : Graph) (a : Nat) : Set Nat := {b | g.Connected a b}

/-- The blocks are a strongly connected component. -/
def IsComponent (g : Graph) (C : Set Nat) : Prop := ∃ a < g.size, C = g.component a

theorem Connected.refl (g : Graph) (a : Nat) : g.Connected a a := ⟨.refl, .refl⟩

theorem Connected.symm (connected : g.Connected a b) : g.Connected b a :=
  ⟨connected.2, connected.1⟩

theorem Connected.trans {c : Nat} (first : g.Connected a b) (second : g.Connected b c) :
    g.Connected a c :=
  ⟨first.1.trans second.1, second.2.trans first.2⟩

theorem Connected.component_eq (connected : g.Connected a b) : g.component a = g.component b := by
  ext c
  exact ⟨connected.symm.trans, connected.trans⟩

theorem Navigable.lt_of_edge (navigable : g.Navigable) (edge : g.Edge a b) : b < g.size := by
  unfold Edge succ at edge
  cases here : g.block? a with
  | none => simp [here] at edge
  | some c =>
    rw [here] at edge
    exact navigable.inside here edge

theorem Navigable.lt_of_reaches (navigable : g.Navigable) (inside : a < g.size)
    (reaches : g.Reaches a b) : b < g.size := by
  cases reaches with
  | refl => exact inside
  | tail _ edge => exact navigable.lt_of_edge edge

/-! ## What is reached -/

theorem mem_expand : b ∈ expand succ seen ↔ b ∈ seen ∨ ∃ a ∈ seen, b ∈ succ a := by
  simp [expand]

/-- Nothing is found that cannot be reached. -/
theorem reached_of_mem_closure (found : b ∈ closure succ steps seen) :
    ∃ a ∈ seen, Relation.ReflTransGen (fun a b => b ∈ succ a) a b := by
  induction steps generalizing seen with
  | zero => exact ⟨b, found, .refl⟩
  | succ steps ih =>
    simp only [closure] at found
    split at found
    · exact ⟨b, found, .refl⟩
    · obtain ⟨a, wider, path⟩ := ih found
      rcases mem_expand.1 wider with old | ⟨start, old, edge⟩
      · exact ⟨a, old, path⟩
      · exact ⟨start, old, .head edge path⟩

theorem subset_closure : seen ⊆ closure succ steps seen := by
  induction steps generalizing seen with
  | zero => exact List.Subset.refl seen
  | succ steps ih =>
    simp only [closure]
    split
    · exact List.Subset.refl seen
    · exact fun a member => ih (mem_expand.2 (Or.inl member))

theorem nodup_closure (distinct : seen.Nodup) : (closure succ steps seen).Nodup := by
  induction steps generalizing seen with
  | zero => exact distinct
  | succ steps ih =>
    simp only [closure]
    split
    · exact distinct
    · exact ih (nodup_eraseDups _)

/-- A list without repetition that is as long as one that has all its elements has all of them. -/
theorem subset_of_length_le {all : List Nat} (distinct : seen.Nodup) (inside : seen ⊆ all)
    (long : all.length ≤ seen.length) : all ⊆ seen :=
  ((distinct.subperm inside).perm_of_length_le long).symm.subset

/-- With a step for each block that has not been seen, the search goes on until all is found. -/
theorem closure_closed (within : ∀ a b, b ∈ succ a → b < n) (distinct : seen.Nodup)
    (below : ∀ a ∈ seen, a < n) (enough : n ≤ steps + seen.length)
    (found : a ∈ closure succ steps seen) (edge : b ∈ succ a) :
    b ∈ closure succ steps seen := by
  induction steps generalizing seen with
  | zero =>
    have all : List.range n ⊆ seen := by
      refine subset_of_length_le distinct (fun a member => ?_) ?_
      · exact List.mem_range.2 (below a member)
      · rwa [List.length_range, ← Nat.zero_add seen.length]
    exact all (List.mem_range.2 (within a b edge))
  | succ steps ih =>
    have wider : seen ⊆ expand succ seen := fun a member => mem_expand.2 (Or.inl member)
    simp only [closure] at found ⊢
    split at found
    · next same =>
      rw [if_pos same]
      exact subset_of_length_le distinct wider same.le (mem_expand.2 (Or.inr ⟨a, found, edge⟩))
    · next longer =>
      rw [if_neg longer]
      have grows := (distinct.subperm wider).length_le
      refine ih (nodup_eraseDups _) (fun c member => ?_) (by omega) found
      rcases mem_expand.1 member with old | ⟨start, -, step⟩
      · exact below c old
      · exact within start c step

theorem mem_reachable (navigable : g.Navigable) (inside : a < g.size) :
    b ∈ g.reachable a ↔ g.Reaches a b := by
  constructor
  · intro found
    obtain ⟨start, isStart, path⟩ := reached_of_mem_closure found
    rw [List.mem_singleton.1 isStart] at path
    exact path
  · intro path
    induction path with
    | refl => exact subset_closure (List.mem_singleton_self a)
    | tail _ edge ih =>
      refine closure_closed (n := g.size) (fun _ _ => navigable.lt_of_edge)
        (List.nodup_singleton a) (fun c member => ?_) (Nat.le_succ _) ih edge
      rwa [List.mem_singleton.1 member]

/-! ## Counting -/

/-- What a list without repetition holds is as much as the list is long. -/
theorem encard_list {α : Type} {xs : List α} (distinct : xs.Nodup) :
    {x | x ∈ xs}.encard = xs.length := by
  classical
  have same : {x | x ∈ xs} = (xs.toFinset : Set α) := by ext x; simp
  rw [same, Set.encard_coe_eq_coe_finsetCard, List.toFinset_card_of_nodup distinct]

theorem encard_reaches (navigable : g.Navigable) (inside : a < g.size) :
    {b | g.Reaches a b}.encard = (g.reachable a).length := by
  have same : {b | g.Reaches a b} = {b | b ∈ g.reachable a} := by
    ext b
    exact (mem_reachable navigable inside).symm
  rw [same]
  exact encard_list (nodup_closure (List.nodup_singleton a))

/-! ## Components -/

/-- The block is the first one of a component with other blocks. -/
structure Represents (g : Graph) (b : Nat) : Prop where
  inside : b < g.size
  others : ∃ a, b < a ∧ g.Connected b a
  first : ∀ a < b, ¬ g.Connected a b

theorem onCycle_iff (navigable : g.Navigable) (isA : a < g.size) (isB : b < g.size) :
    onCycle ((List.range g.size).map g.reachable) a b = true ↔ g.Connected a b := by
  have reach : ∀ c < g.size,
      ((List.range g.size).map g.reachable)[c]?.getD [] = g.reachable c := by
    intro c isC
    rw [List.getElem?_map, List.getElem?_range isC, Option.map_some, Option.getD_some]
  rw [onCycle, reach a isA, reach b isB, Bool.and_eq_true, List.contains_iff_mem,
    List.contains_iff_mem, mem_reachable navigable isA, mem_reachable navigable isB]
  rfl

theorem encard_represents (navigable : g.Navigable) :
    {b | g.Represents b}.encard = g.cycleCount := by
  unfold cycleCount
  rw [List.countP_eq_length_filter, ← encard_list (List.nodup_range.filter _)]
  congr 1
  ext b
  simp only [Set.mem_ofPred_eq, List.mem_filter, List.mem_range, Bool.and_eq_true, List.any_eq_true,
    Bool.not_eq_true', List.any_eq_false, decide_eq_true_eq, not_and]
  constructor
  · rintro ⟨inside, ⟨a, behind, connected⟩, first⟩
    have isA := navigable.lt_of_reaches inside connected.1
    refine ⟨inside, ⟨a, isA, behind, (onCycle_iff navigable isA inside).2 connected.symm⟩, ?_⟩
    exact fun x isX before joined => first x before ((onCycle_iff navigable isX inside).1 joined)
  · rintro ⟨inside, ⟨a, isA, behind, onCycle⟩, first⟩
    have connected := (onCycle_iff navigable isA inside).1 onCycle
    refine ⟨inside, ⟨a, behind, connected.symm⟩, fun x before joined => ?_⟩
    have isX := before.trans inside
    exact first x isX before ((onCycle_iff navigable isX inside).2 joined)

/-- Every component with several blocks has one first block. -/
theorem components_eq (navigable : g.Navigable) :
    {C | g.IsComponent C ∧ C.Nontrivial} = g.component '' {b | g.Represents b} := by
  ext C
  constructor
  · rintro ⟨⟨a, isA, rfl⟩, several⟩
    obtain ⟨m, connected, least⟩ := wellFounded_lt.has_min (g.component a) ⟨a, Connected.refl g a⟩
    obtain ⟨c, isC, other⟩ := several.exists_ne m
    have behind : m < c := Nat.lt_of_le_of_ne (Nat.not_lt.1 (least c isC)) other.symm
    have represents : g.Represents m := by
      refine ⟨navigable.lt_of_reaches isA connected.1, ⟨c, behind, connected.symm.trans isC⟩, ?_⟩
      exact fun x before joined => least x (connected.trans joined.symm) before
    exact ⟨m, represents, connected.component_eq.symm⟩
  · rintro ⟨b, ⟨isB, ⟨a, behind, connected⟩, -⟩, rfl⟩
    exact ⟨⟨b, isB, rfl⟩, b, Connected.refl g b, a, connected, behind.ne⟩

theorem encard_components (navigable : g.Navigable) :
    {C | g.IsComponent C ∧ C.Nontrivial}.encard = g.cycleCount := by
  have once : Set.InjOn g.component {b | g.Represents b} := by
    intro b isB c isC same
    have connected : g.Connected b c := by
      have self : c ∈ g.component c := Connected.refl g c
      rwa [← same] at self
    rcases Nat.lt_trichotomy b c with before | equal | behind
    · exact absurd connected (isC.first b before)
    · exact equal
    · exact absurd connected.symm (isB.first c behind)
  rw [components_eq navigable, once.encard_image, encard_represents navigable]

/-! ## Edges -/

theorem edge_iff : g.Edge a b ↔ ∃ c, g.block? a = some c ∧ b ∈ c.succ := by
  unfold Edge Graph.succ
  cases g.block? a <;> simp

theorem Navigable.placed (navigable : g.Navigable) : Placed g.blocks :=
  fun _ _ => navigable.place

theorem Navigable.block?_of_mem (navigable : g.Navigable) {c : Block} (member : c ∈ g.blocks) :
    g.block? c.id = some c := by
  obtain ⟨id, here⟩ := List.mem_iff_getElem?.1 member
  have isHere : g.block? id = some c := here
  rwa [navigable.place isHere]

/-- The edges of a graph, by the blocks that they start from. -/
def edges (g : Graph) : List (Nat × Nat) := g.blocks.flatMap fun b => b.succ.map (b.id, ·)

theorem mem_edges (navigable : g.Navigable) : (a, b) ∈ g.edges ↔ g.Edge a b := by
  rw [edge_iff, edges, List.mem_flatMap]
  constructor
  · rintro ⟨c, member, isEdge⟩
    obtain ⟨target, edge, pair⟩ := List.mem_map.1 isEdge
    obtain ⟨rfl, rfl⟩ := Prod.mk.inj pair
    exact ⟨c, navigable.block?_of_mem member, edge⟩
  · rintro ⟨c, here, edge⟩
    refine ⟨c, List.mem_of_getElem? here, List.mem_map.2 ⟨b, edge, ?_⟩⟩
    rw [navigable.place here]

theorem length_edges (g : Graph) : g.edges.length = g.edgeCount := by
  have count : ∀ (blocks : List Block) (n : Nat),
      blocks.foldl (fun n b => n + b.succ.length) n =
        n + (blocks.flatMap fun b => b.succ.map (b.id, ·)).length := by
    intro blocks
    induction blocks with
    | nil => exact fun n => rfl
    | cons b rest ih =>
      intro n
      rw [List.foldl_cons, ih, List.flatMap_cons, List.length_append, List.length_map,
        Nat.add_assoc]
  rw [edgeCount, count, Nat.zero_add, edges]

theorem nodup_edges (navigable : g.Navigable) (once : ∀ c ∈ g.blocks, c.succ.Nodup) :
    g.edges.Nodup := by
  have distinct : g.blocks.Pairwise fun c d => c.id ≠ d.id := by
    have places : (g.blocks.map Block.id).Nodup := by
      rw [navigable.placed.ids]
      exact List.nodup_range
    exact List.pairwise_map.1 places
  refine List.nodup_flatMap.2 ⟨fun c member => ?_, distinct.imp fun different => ?_⟩
  · exact (once c member).map fun _ _ same => (Prod.mk.inj same).2
  · intro e first second
    obtain ⟨_, -, rfl⟩ := List.mem_map.1 first
    obtain ⟨_, -, same⟩ := List.mem_map.1 second
    exact different (Prod.mk.inj same).1.symm

theorem encard_edges (navigable : g.Navigable) (once : ∀ c ∈ g.blocks, c.succ.Nodup) :
    {e : Nat × Nat | g.Edge e.1 e.2}.encard = g.edgeCount := by
  have same : {e : Nat × Nat | g.Edge e.1 e.2} = {e | e ∈ g.edges} := by
    ext ⟨source, target⟩
    exact (mem_edges navigable).symm
  rw [same, encard_list (nodup_edges navigable once), length_edges]

theorem encard_selfEdges (navigable : g.Navigable) :
    {b | g.Edge b b}.encard = g.selfLoopCount := by
  let loops := (g.blocks.filter fun c => c.succ.contains c.id).map Block.id
  have distinct : loops.Nodup := by
    refine List.Nodup.sublist (List.filter_sublist.map Block.id) ?_
    rw [navigable.placed.ids]
    exact List.nodup_range
  have same : {b | g.Edge b b} = {b | b ∈ loops} := by
    ext b
    refine edge_iff.trans ⟨?_, fun isLoop => ?_⟩
    · rintro ⟨c, here, edge⟩
      obtain rfl := navigable.place here
      refine List.mem_map.2 ⟨c, List.mem_filter.2 ⟨List.mem_of_getElem? here, ?_⟩, rfl⟩
      exact List.contains_iff_mem.2 edge
    · obtain ⟨c, kept, rfl⟩ := List.mem_map.1 isLoop
      obtain ⟨member, edge⟩ := List.mem_filter.1 kept
      exact ⟨c, navigable.block?_of_mem member, List.contains_iff_mem.1 edge⟩
  rw [same, encard_list distinct, List.length_map, ← List.countP_eq_length_filter, selfLoopCount]

/-! ## The drawing -/

/-- The graph without the edges from a block to itself. -/
def drawing (g : Graph) : Graph :=
  ⟨g.blocks.map fun b => { b with succ := b.succ.filter (· ≠ b.id) }⟩

theorem size_drawing (g : Graph) : g.drawing.size = g.size := List.length_map ..

theorem block?_drawing : g.drawing.block? a =
    (g.block? a).map fun b => { b with succ := b.succ.filter (· ≠ b.id) } := List.getElem?_map ..

theorem drawing_navigable (navigable : g.Navigable) : g.drawing.Navigable where
  place here := by
    rw [block?_drawing] at here
    obtain ⟨b, isBlock, rfl⟩ := Option.map_eq_some_iff.1 here
    have place : b.id = _ := navigable.place isBlock
    exact place
  inside here edge := by
    rw [block?_drawing] at here
    obtain ⟨b, isBlock, rfl⟩ := Option.map_eq_some_iff.1 here
    rw [size_drawing]
    exact navigable.inside isBlock (List.mem_of_mem_filter edge)

theorem edge_drawing (navigable : g.Navigable) : g.drawing.Edge a b ↔ g.Edge a b ∧ a ≠ b := by
  rw [edge_iff, edge_iff, block?_drawing]
  constructor
  · rintro ⟨_, here, edge⟩
    obtain ⟨c, isBlock, rfl⟩ := Option.map_eq_some_iff.1 here
    obtain ⟨edge, other⟩ := List.mem_filter.1 edge
    rw [navigable.place isBlock, decide_eq_true_eq] at other
    exact ⟨⟨c, isBlock, edge⟩, other.symm⟩
  · rintro ⟨⟨c, isBlock, edge⟩, other⟩
    refine ⟨_, Option.map_eq_some_iff.2 ⟨c, isBlock, rfl⟩, List.mem_filter.2 ⟨edge, ?_⟩⟩
    rw [navigable.place isBlock, decide_eq_true_eq]
    exact other.symm

/-- A path need not go from a block to itself. -/
theorem reaches_drawing (navigable : g.Navigable) : g.drawing.Reaches = g.Reaches := by
  ext a b
  constructor
  · exact Relation.ReflTransGen.mono (fun c d edge => ((edge_drawing navigable).1 edge).1) a b
  · intro path
    induction path with
    | refl => exact .refl
    | tail _ edge ih =>
      next c d _ =>
      by_cases same : c = d
      · exact same ▸ ih
      · exact ih.tail ((edge_drawing navigable).2 ⟨edge, same⟩)

/-- So the drawing has the same components. -/
theorem isComponent_drawing (navigable : g.Navigable) : g.drawing.IsComponent = g.IsComponent := by
  funext C
  unfold IsComponent component Connected
  rw [reaches_drawing navigable, size_drawing]

theorem length_reachable_drawing (navigable : g.Navigable) (inside : a < g.size) :
    (g.drawing.reachable a).length = (g.reachable a).length := by
  have inDrawing := encard_reaches (drawing_navigable navigable) (g.size_drawing.symm ▸ inside)
  rw [reaches_drawing navigable, encard_reaches navigable inside] at inDrawing
  exact_mod_cast inDrawing.symm

theorem cycleCount_drawing (navigable : g.Navigable) : g.drawing.cycleCount = g.cycleCount := by
  have inDrawing := encard_components (drawing_navigable navigable)
  rw [isComponent_drawing navigable, encard_components navigable] at inDrawing
  exact_mod_cast inDrawing.symm

/-! ## The shape -/

theorem nodup_succ_build (code : List Instr) : ∀ b ∈ (build code).blocks, b.succ.Nodup := by
  intro b member
  unfold build at member
  rw [link_eq] at member
  obtain ⟨bare, -, rfl⟩ := List.mem_map.1 member
  exact nodup_eraseDups _

/-- Nothing goes wrong in finding the shape of a graph, and its counts are exact: as many blocks as
can be reached from the first one, as many edges as lead from a block to a block, and as many loops
as there are components of several blocks and edges from a block to itself. The drawing without the
latter has as many blocks to be reached, and as many components of several blocks. -/
theorem shape_exact (code : List Instr) (nonempty : (build code).blocks ≠ []) :
    let g := build code
    ∃ s, Attempt.shape g = pure s ∧ s = g.shape ∧ s.blocks = g.size ∧
      {b | g.Reaches 0 b}.encard = s.reachable ∧
      {e : Nat × Nat | g.Edge e.1 e.2}.encard = s.edges ∧
      {C | g.IsComponent C ∧ C.Nontrivial}.encard + {b | g.Edge b b}.encard = s.loops ∧
      s.reachable = (g.drawing.reachable 0).length ∧
      s.loops = g.drawing.cycleCount + g.selfLoopCount := by
  intro g
  have navigable : g.Navigable := (build_regular code).navigable
  have first : 0 < g.size := List.length_pos_iff.2 nonempty
  have reachable : g.shape.reachable = (g.reachable 0).length := by
    have some : g.blocks.isEmpty = false := List.isEmpty_eq_false_iff.2 nonempty
    rw [shape, some, if_neg Bool.false_ne_true]
  refine ⟨g.shape, Attempt.shape_eq navigable.placed, rfl, rfl, ?_, ?_, ?_, ?_, ?_⟩
  · rw [reachable, encard_reaches navigable first]
  · exact encard_edges navigable (nodup_succ_build code)
  · rw [encard_components navigable, encard_selfEdges navigable]
    exact (Nat.cast_add _ _).symm
  · rw [reachable, length_reachable_drawing navigable first]
  · rw [cycleCount_drawing navigable]
    rfl

/-- Two blocks that lead to each other, a block that leads to itself, and one that no path leads
to. -/
theorem shape_exact_loops :
    let jump (id : Nat) (op : Opcode) (args : List Operand) : Instr :=
      .ofCommand id (.ofOpcode op args)
    let g := build [⟨1, .label "K", "", []⟩,
      jump 2 .bne [.reg (.general 8), .reg (.general 9), .sym "L"], jump 3 .j [.sym "K"],
      ⟨4, .label "L", "", []⟩, jump 5 .bne [.reg (.general 8), .reg Reg.zero, .sym "L"],
      jump 6 .jr [.reg Reg.link], jump 7 .j [.sym "L"]]
    g.blocks ≠ [] ∧ {b | g.Reaches 0 b}.encard = 4 ∧
      {e : Nat × Nat | g.Edge e.1 e.2}.encard = 6 ∧
      {C | g.IsComponent C ∧ C.Nontrivial}.encard + {b | g.Edge b b}.encard = 2 := by
  intro jump g
  have shape : g.shape = ⟨5, 6, 4, 2⟩ := by decide +kernel
  have nonempty : g.blocks ≠ [] := by decide +kernel
  obtain ⟨s, -, rfl, -, reachable, edges, loops, -⟩ := shape_exact _ nonempty
  rw [shape] at reachable edges loops
  exact ⟨nonempty, reachable, edges, loops⟩

end Graph

end MipsFlow
