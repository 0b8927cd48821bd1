import MipsFlow.Optimizer
import MipsFlow.Proofs.Recasting
import MipsFlow.Proofs.Relabelling

/-!
# Facts under other identities

The graph of relabelled code is the relabelled graph (`Graph.build_relabel`). The facts about it are
the same, but that the definitions that reach a place have other names: `Facts.analyze_relabel`. The
solver only compares facts with each other, so it takes the same steps whatever they are called, as
long as different facts have different names (`Problem.solution_map`).
-/

namespace MipsFlow

open Function (Injective)

/-! ## Sets of facts -/

namespace FactSet

variable {α β : Type}

/-- The facts under other names. -/
def map (φ : α → β) (s : FactSet α) : FactSet β := ⟨s.members.map φ⟩

@[simp] theorem map_id (s : FactSet α) : s.map id = s := by
  simp [map]

@[simp] theorem map_empty (φ : α → β) : (empty : FactSet α).map φ = empty := by
  simp [map, empty]

theorem map_filter {φ : α → β} {property : α → Bool} {property' : β → Bool}
    (same : ∀ a, property' (φ a) = property a) (s : FactSet α) :
    (s.filter property).map φ = (s.map φ).filter property' := by
  have property_eq : property' ∘ φ = property := funext same
  simp [map, filter, List.filter_map, property_eq]

variable [DecidableEq α] [DecidableEq β] {φ : α → β} (injective : Injective φ)

include injective

theorem contains_map (s : FactSet α) (a : α) : (s.map φ).contains (φ a) = s.contains a := by
  simp [map, contains, List.mem_map_of_injective injective]

theorem map_insert (s : FactSet α) (a : α) : (s.insert a).map φ = (s.map φ).insert (φ a) := by
  unfold insert
  rw [contains_map injective]
  split <;> rfl

theorem map_insertAll (s : FactSet α) (as : List α) :
    (s.insertAll as).map φ = (s.map φ).insertAll (as.map φ) := by
  induction as generalizing s with
  | nil => rfl
  | cons a as ih => exact (ih (s.insert a)).trans (by rw [map_insert injective]; rfl)

theorem map_ofList (as : List α) : (ofList as).map φ = ofList (as.map φ) :=
  map_insertAll injective empty as

theorem map_union (s t : FactSet α) : (s.union t).map φ = (s.map φ).union (t.map φ) := by
  have rest : (t.filter fun a => !s.contains a).map φ =
      (t.map φ).filter fun b => !(s.map φ).contains b :=
    map_filter (fun a => by rw [contains_map injective]) t
  unfold union
  rw [← rest]
  simp [map]

theorem map_inter (s t : FactSet α) : (s.inter t).map φ = (s.map φ).inter (t.map φ) :=
  map_filter (contains_map injective t) s

theorem map_diff (s t : FactSet α) : (s.diff t).map φ = (s.map φ).diff (t.map φ) :=
  map_filter (fun a => by rw [contains_map injective]) s

theorem isSubset_map (s t : FactSet α) : (s.map φ).isSubset (t.map φ) = s.isSubset t := by
  have same : (t.map φ).contains ∘ φ = t.contains := funext (contains_map injective t)
  unfold isSubset map
  rw [List.all_map]
  exact congrArg s.members.all same

theorem sameAs_map (s t : FactSet α) : (s.map φ).sameAs (t.map φ) = s.sameAs t := by
  unfold sameAs
  rw [isSubset_map injective, isSubset_map injective]

end FactSet

/-! ## Graphs -/

/-- The builder of graphs does not look at identities and notes. -/
def Recast.relabel (f : Nat → Nat) : Recast where
  instr := Instr.relabel f
  command := id
  command? _ := Option.map_id_apply.symm
  label? _ := rfl
  addressTaken _ _ := rfl
  route _ := rfl

/-- The block with its instructions under other identities. -/
def Block.relabel (f : Nat → Nat) (b : Block) : Block :=
  { b with code := b.code.map (Instr.relabel f) }

namespace Block

variable (f : Nat → Nat) (b : Block)

@[simp] theorem id_relabel : (b.relabel f).id = b.id := rfl

@[simp] theorem code_relabel : (b.relabel f).code = b.code.map (Instr.relabel f) := rfl

@[simp] theorem succ_relabel : (b.relabel f).succ = b.succ := rfl

@[simp] theorem pred_relabel : (b.relabel f).pred = b.pred := rfl

@[simp] theorem entry_relabel : (b.relabel f).entry = b.entry := rfl

@[simp] theorem unresolved_relabel : (b.relabel f).unresolved = b.unresolved := rfl

end Block

/-- The graph with its instructions under other identities. -/
def Graph.relabel (f : Nat → Nat) (g : Graph) : Graph := ⟨g.blocks.map (Block.relabel f)⟩

namespace Graph

variable (f : Nat → Nat) (g : Graph)

@[simp] theorem block?_relabel (id : Nat) :
    (g.relabel f).block? id = (g.block? id).map (Block.relabel f) :=
  List.getElem?_map

@[simp] theorem size_relabel : (g.relabel f).size = g.size := List.length_map _

@[simp] theorem flatten_relabel : (g.relabel f).flatten = g.flatten.map (Instr.relabel f) := by
  unfold flatten relabel
  rw [List.flatMap_map, List.map_flatMap]
  rfl

theorem setCode_relabel (id : Nat) (code : List Instr) :
    (g.relabel f).setCode id (code.map (Instr.relabel f)) = (g.setCode id code).relabel f := by
  have blocks : ∀ blocks : List Block,
      (blocks.map (Block.relabel f)).modify id
          (fun b => { b with code := code.map (Instr.relabel f) }) =
        (blocks.modify id fun b => { b with code }).map (Block.relabel f) := by
    intro blocks
    refine List.ext_getElem? fun place => ?_
    simp only [List.getElem?_modify, List.getElem?_map, Option.map_eq_map, Option.map_map]
    congr 1
    funext b
    simp only [Function.comp_apply]
    split <;> rfl
  exact congrArg Graph.mk (blocks g.blocks)

@[simp] theorem succ_relabel : (g.relabel f).succ = g.succ := by
  funext id
  unfold succ
  rw [block?_relabel]
  cases g.block? id <;> rfl

@[simp] theorem postOrder_relabel : (g.relabel f).postOrder = g.postOrder := by
  unfold postOrder
  rw [succ_relabel, size_relabel]

/-- The graph of relabelled code is the relabelled graph. -/
theorem build_relabel (code : List Instr) :
    build (code.map (Instr.relabel f)) = (build code).relabel f :=
  build_recast (.relabel f) code

end Graph

/-! ## Solutions -/

namespace Problem

variable {α β : Type}

/-- The problem with its facts under other names. -/
def map (φ : α → β) (p : Problem α) : Problem β :=
  { name := p.name
    direction := p.direction
    meet := p.meet
    gen := p.gen.map (FactSet.map φ)
    kill := p.kill.map (FactSet.map φ)
    boundary := p.boundary.map φ
    everything := p.everything.map (FactSet.map φ)
    opened := p.opened }

/-- The work in progress with its facts under other names. -/
def Progress.map (φ : α → β) (w : Progress α) : Progress β :=
  ⟨w.into.map (FactSet.map φ), w.out.map (FactSet.map φ), w.queue, w.steps⟩

end Problem

/-- The solution with its facts under other names. -/
def Solution.map {α β : Type} (φ : α → β) (s : Solution α) : Solution β :=
  ⟨s.entry.map (FactSet.map φ), s.exit.map (FactSet.map φ), s.steps⟩

namespace Problem

variable {α β : Type} (φ : α → β)

@[simp] theorem map_id (p : Problem α) : p.map id = p := by
  have sets : FactSet.map (id : α → α) = id := funext FactSet.map_id
  simp [map, sets]

variable [DecidableEq α] [DecidableEq β] {φ} (injective : Injective φ) (p : Problem α)
variable {f : Nat → Nat} {g : Graph} (opened : ∀ b : Block, p.opened (b.relabel f) = p.opened b)

omit [DecidableEq α] [DecidableEq β] in
theorem getD_map (sets : List (FactSet α)) (id : Nat) :
    ((sets.map (FactSet.map φ))[id]?).getD .empty = ((sets[id]?).getD .empty).map φ := by
  rw [List.getElem?_map]
  cases sets[id]? <;> rfl

include injective

theorem combine_map (s t : FactSet α) :
    (p.map φ).combine (s.map φ) (t.map φ) = (p.combine s t).map φ := by
  unfold combine
  cases isMeet : p.meet with
  | union => simp only [map, isMeet, FactSet.map_union injective]
  | intersect => simp only [map, isMeet, FactSet.map_inter injective]

theorem combineAll_map (sets : List (FactSet α)) :
    (p.map φ).combineAll (sets.map (FactSet.map φ)) = (p.combineAll sets).map φ := by
  cases sets with
  | nil => rfl
  | cons s rest =>
    unfold combineAll
    simp only [List.map_cons]
    induction rest generalizing s with
    | nil => rfl
    | cons t rest ih =>
      rw [List.map_cons, List.foldl_cons, List.foldl_cons, combine_map injective]
      exact ih _

theorem transfer_map (b : Block) (facts : FactSet α) :
    (p.map φ).transfer (b.relabel f) (facts.map φ) = (p.transfer b facts).map φ := by
  unfold transfer
  rw [FactSet.map_union injective, FactSet.map_diff injective, ← getD_map, ← getD_map]
  rfl

include opened

omit injective [DecidableEq α] [DecidableEq β] in
theorem atBoundary_relabel (b : Block) : (p.map φ).atBoundary (b.relabel f) = p.atBoundary b := by
  unfold atBoundary
  cases isDirection : p.direction with
  | forward =>
    simp only [map, isDirection, opened]
    rfl
  | backward => simp only [map, isDirection, Block.succ_relabel]

theorem inflow_map (out : List (FactSet α)) (b : Block) :
    (p.map φ).inflow (out.map (FactSet.map φ)) (b.relabel f) = (p.inflow out b).map φ := by
  unfold inflow
  rw [atBoundary_relabel p opened, ← combineAll_map injective]
  congr 1
  rw [List.map_append]
  congr 1
  · split <;> rfl
  · rw [List.map_map]
    exact List.map_congr_left fun id _ => getD_map out id

theorem advance_map (w : Progress α) :
    (p.map φ).advance (g.relabel f) (w.map φ) = (p.advance g w).map φ := by
  obtain ⟨into, out, queue, steps⟩ := w
  cases queue with
  | nil => rfl
  | cons id queue =>
    simp only [advance, Progress.map, Graph.block?_relabel]
    cases g.block? id with
    | none => rfl
    | some b =>
      simp only [Option.map_some, inflow_map injective p opened, transfer_map injective, getD_map,
        FactSet.sameAs_map injective]
      split
      · simp [List.map_set]
      · simp [List.map_set, sinks, map]

theorem settle_map (fuel : Nat) (w : Progress α) :
    (p.map φ).settle (g.relabel f) fuel (w.map φ) = (p.settle g fuel w).map φ := by
  induction fuel generalizing w with
  | zero => rfl
  | succ fuel ih =>
    unfold settle
    rw [advance_map injective p opened, ih]
    have queue : (w.map φ).queue = w.queue := rfl
    rw [queue]
    split <;> rfl

omit injective opened [DecidableEq α] [DecidableEq β] in
theorem fuel_map : (p.map φ).fuel (g.relabel f) = p.fuel g := by
  have sets : ∀ sets : List (FactSet α),
      ((sets.map (FactSet.map φ)).flatMap FactSet.members).length =
      (sets.flatMap FactSet.members).length := by
    intro sets
    simp [List.length_flatMap, Function.comp_def, FactSet.map]
  have count : (p.map φ).factCount = p.factCount := by
    unfold factCount
    simp only [map, sets]
    cases p.everything <;> simp [FactSet.map, FactSet.empty]
  rw [fuel, fuel, count, Graph.size_relabel]

omit injective opened [DecidableEq α] [DecidableEq β] in
theorem initial_map : (p.map φ).initial (g.relabel f) = (p.initial g).map φ := by
  have start : (p.map φ).start = p.start.map φ := by
    unfold start
    cases isMeet : p.meet with
    | union => simp [map, isMeet]
    | intersect => cases isAll : p.everything <;> simp [map, isMeet, isAll]
  have order : (p.map φ).order (g.relabel f) = p.order g := by
    simp [order, Graph.reversePostOrder, map]
  rw [initial, initial, start, order]
  simp [Progress.map]

/-- Facts under other names, in code under other identities, have the same solution under these
names. It is found in as many steps. -/
theorem solution_map : (p.map φ).solution (g.relabel f) = (p.solution g).map φ := by
  unfold solution
  rw [fuel_map, initial_map, settle_map injective p opened]
  have direction : (p.map φ).direction = p.direction := rfl
  rw [direction]
  cases p.direction <;> rfl

omit [DecidableEq β] injective in
/-- The solution does not look at identities and notes unless the facts do. -/
theorem solution_relabel : p.solution (g.relabel f) = p.solution g := by
  have sets : FactSet.map (id : α → α) = id := funext FactSet.map_id
  have same := solution_map (g := g) Function.injective_id p opened
  rw [map_id] at same
  rw [same]
  simp [Solution.map, sets]

end Problem

/-! ## The three analyses -/

theorem Liveness.problem_relabel (f : Nat → Nat) (g : Graph) (reserved : List Reg) :
    problem (g.relabel f) reserved = problem g reserved := by
  have collected : ∀ (unresolved : Bool) (use defined : FactSet Reg) (code : List Instr),
      useDef unresolved use defined (code.map (Instr.relabel f)) =
        useDef unresolved use defined code := by
    intro unresolved use defined code
    induction code generalizing use defined with
    | nil => rfl
    | cons p rest ih =>
      have uses : usesBefore unresolved (p.relabel f) (rest.map (Instr.relabel f)) =
          usesBefore unresolved p rest := by
        simp [usesBefore]
      rw [List.map_cons, useDef, useDef, uses]
      exact ih _ _
  have sets : (g.relabel f).blocks.map (fun b =>
      useDef b.unresolved (.ofList reserved) .empty b.code) =
        g.blocks.map fun b => useDef b.unresolved (.ofList reserved) .empty b.code := by
    unfold Graph.relabel
    rw [List.map_map]
    exact List.map_congr_left fun b _ => collected ..
  simp only [problem, sets]

theorem Copies.problem_relabel (f : Nat → Nat) (g : Graph) (reserved : List Reg) :
    problem (g.relabel f) reserved = problem g reserved := by
  have collected : ∀ (fixed : FactSet Reg) (all gen kill : FactSet Copy) (code : List Instr),
      genKill fixed all gen kill (code.map (Instr.relabel f)) =
        genKill fixed all gen kill code := by
    intro fixed all gen kill code
    induction code generalizing gen kill with
    | nil => rfl
    | cons p rest ih => exact ih _ _
  have all : made (.ofList reserved) (g.relabel f).flatten = made (.ofList reserved) g.flatten := by
    unfold made
    rw [Graph.flatten_relabel, List.filterMap_map]
    rfl
  have sets : ∀ (fixed : FactSet Reg) (all : FactSet Copy), (g.relabel f).blocks.map (fun b =>
      genKill fixed all .empty .empty b.code) =
        g.blocks.map fun b => genKill fixed all .empty .empty b.code := by
    intro fixed all
    unfold Graph.relabel
    rw [List.map_map]
    exact List.map_congr_left fun b _ => collected ..
  simp only [problem, all, sets]

namespace Reaching

variable {f : Nat → Nat} (injective : Injective f)

theorem definitions_relabel (f : Nat → Nat) (code : List Instr) :
    definitions (code.map (Instr.relabel f)) = (definitions code).map (Prod.map id f) := by
  unfold definitions
  rw [List.flatMap_map, List.map_flatMap]
  refine List.flatMap_congr fun p _ => ?_
  rw [List.map_map]
  rfl

theorem lastOfEach_map (f : Nat → Nat) (all : List (Reg × Nat)) :
    lastOfEach (all.map (Prod.map id f)) = (lastOfEach all).map (Prod.map id f) := by
  induction all with
  | nil => rfl
  | cons d rest ih =>
    have later : (rest.map (Prod.map id f)).any (·.1 = (Prod.map id f d).1) =
        rest.any (·.1 = d.1) := by
      rw [List.any_map]
      rfl
    rw [List.map_cons, lastOfEach, lastOfEach, later, ih]
    split <;> rfl

include injective

theorem gen_relabel (b : Block) : gen (b.relabel f) = (gen b).map f := by
  unfold gen
  rw [FactSet.map_ofList injective, Block.code_relabel, definitions_relabel, lastOfEach_map,
    List.map_map, List.map_map]
  rfl

theorem rivals_relabel (all : List (Reg × Nat)) (b : Block) :
    rivals (all.map (Prod.map id f)) (b.relabel f) = (rivals all b).map f := by
  unfold rivals
  simp only [FactSet.map_ofList injective, Block.code_relabel, definitions_relabel,
    List.filter_map, List.map_map]
  rfl

/-- Definitions have their identities for names. -/
theorem problem_relabel (g : Graph) : problem (g.relabel f) = (problem g).map f := by
  have gens : (g.relabel f).blocks.map gen = (g.blocks.map gen).map (FactSet.map f) := by
    unfold Graph.relabel
    rw [List.map_map, List.map_map]
    exact List.map_congr_left fun b _ => gen_relabel injective b
  have kills : (g.relabel f).blocks.map (fun b =>
      (rivals (definitions (g.relabel f).flatten) b).diff (gen b)) =
        (g.blocks.map fun b => (rivals (definitions g.flatten) b).diff (gen b)).map
          (FactSet.map f) := by
    rw [Graph.flatten_relabel, definitions_relabel]
    unfold Graph.relabel
    rw [List.map_map, List.map_map]
    refine List.map_congr_left fun b _ => ?_
    simp only [Function.comp_apply, FactSet.map_diff injective, rivals_relabel injective,
      gen_relabel injective]
  simp only [problem, Problem.map, gens, kills]
  rfl

end Reaching

namespace Facts

/-- The facts with definitions under other names. -/
def relabel (f : Nat → Nat) (facts : Facts) : Facts := { facts with reach := facts.reach.map f }

variable {f : Nat → Nat}

/-- The facts about relabelled code. -/
theorem analyze_relabel (injective : Injective f) (g : Graph) (reserved : List Reg) :
    analyze (g.relabel f) reserved = (analyze g reserved).relabel f := by
  have live := (Liveness.problem g reserved).solution_relabel (f := f) (g := g) fun _ => rfl
  have reach := (Reaching.problem g).solution_map (f := f) (g := g) injective fun _ => rfl
  have copies := (Copies.problem g reserved).solution_relabel (f := f) (g := g) fun _ => rfl
  simp only [analyze, relabel, Liveness.problem_relabel, Copies.problem_relabel,
    Reaching.problem_relabel injective, live, reach, copies]

variable (facts : Facts)

@[simp] theorem reserved_relabel : (facts.relabel f).reserved = facts.reserved := rfl

@[simp] theorem steps_relabel : (facts.relabel f).steps = facts.steps := rfl

theorem reaches_relabel (injective : Injective f) (b : Block) (p : Instr) :
    (facts.relabel f).reaches (b.relabel f) (p.relabel f) = facts.reaches b p := by
  have exit : (facts.relabel f).reach.exitOf b.id = (facts.reach.exitOf b.id).map f :=
    Problem.getD_map facts.reach.exit b.id
  unfold reaches
  rw [Block.id_relabel, exit]
  exact FactSet.contains_map injective _ p.id

end Facts

end MipsFlow
