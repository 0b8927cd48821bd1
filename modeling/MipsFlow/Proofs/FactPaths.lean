import Mathlib.Data.List.Chain
import MipsFlow.Proofs.Lasting
import MipsFlow.Proofs.LivePaths

/-!
# Facts that flow forward, and paths

A forward problem whose boundary facts are empty is solved by looking at paths. A path *carries* a
fact if one of its blocks makes it and no block behind that one destroys it. If facts meet by union,
the facts at the entry of a block are those that some path to it carries (`mem_entryOf_iff_some`).
If they meet by intersection, they are carried by every path to it from where control comes in
(`carries_of_mem_entryOf`), and every fact of which that is true is there as long as control can
come to all blocks (`mem_entryOf_of_carries`).

What a path carries *lasts* along its blocks (`Lasts`); for some problems it also lasts along the
instructions in them (`Graph.codeAlong`).
-/

namespace MipsFlow

/-! ## Routes -/

namespace Graph

variable {g : Graph} {id last : Nat} {route : List Nat} {b : Block}

/-- The instructions of the blocks at some places, one after the other. -/
def codeAlong (g : Graph) (places : List Nat) : List Instr :=
  places.flatMap fun id => (g.block? id).elim [] Block.code

/-- Control may come in at the block without coming from another one: it is the first block, or its
address is taken, or no edge leads to it. -/
def ComesIn (g : Graph) (id : Nat) : Prop :=
  ∃ b, g.block? id = some b ∧ (id = 0 ∨ b.entry = true ∨ b.pred = [])

/-- Control that comes in can go through the blocks of the route, and from the last of them to the
entry of the block. An empty route says that control comes in at the block itself. -/
def Enters (g : Graph) (route : List Nat) (id : Nat) : Prop :=
  g.IsPath (route ++ [id]) ∧ ∃ start, (route ++ [id]).head? = some start ∧ g.ComesIn start

theorem isPath_concat :
    g.IsPath (route ++ [last] ++ [id]) ↔ g.IsPath (route ++ [last]) ∧ id ∈ g.succ last := by
  unfold IsPath
  rw [List.append_assoc, List.singleton_append, List.isChain_append_cons_cons]
  simp

theorem block?_of_mem_succ (edge : id ∈ g.succ last) : ∃ b, g.block? last = some b := by
  cases there : g.block? last with
  | none => simp [Graph.succ, there] at edge
  | some b => exact ⟨b, rfl⟩

theorem block?_of_mem_path (isPath : g.IsPath (route ++ [id])) (member : last ∈ route) :
    ∃ b, g.block? last = some b := by
  obtain ⟨before, after, rfl⟩ := List.append_of_mem member
  have front : g.IsPath (before ++ [last]) ∧ g.IsPath (last :: (after ++ [id])) := by
    have split : g.IsPath (before ++ last :: (after ++ [id])) := by simpa using isPath
    exact List.isChain_split.1 split
  cases after with
  | nil => exact block?_of_mem_succ (List.isChain_cons_cons.1 front.2).1
  | cons next after => exact block?_of_mem_succ (List.isChain_cons_cons.1 front.2).1

theorem mem_flatten_of_mem_codeAlong {p : Instr} (member : p ∈ g.codeAlong route) :
    p ∈ g.flatten := by
  obtain ⟨place, -, inside⟩ := List.mem_flatMap.1 member
  cases here : g.block? place with
  | none => simp [here] at inside
  | some b =>
    rw [here] at inside
    exact mem_flatten here inside

theorem enters_nil : g.Enters [] id ↔ g.ComesIn id := by
  simp [Enters, IsPath]

theorem enters_concat :
    g.Enters (route ++ [last]) id ↔ g.Enters route last ∧ id ∈ g.succ last := by
  have sameStart : (route ++ [last] ++ [id]).head? = (route ++ [last]).head? := by
    simp [List.head?_append]
  rw [Enters, Enters, isPath_concat, sameStart]
  tauto

/-- The predecessors of a block are the blocks that it succeeds. -/
theorem mem_pred_iff (regular : g.Regular) (here : g.block? id = some b) :
    last ∈ b.pred ↔ id ∈ g.succ last := by
  constructor
  · intro edge
    obtain ⟨before, there, edge'⟩ := regular.pred_succ here edge
    exact (succ_eq there).symm ▸ edge'
  · intro edge
    obtain ⟨before, there⟩ := block?_of_mem_succ edge
    rw [succ_eq there] at edge
    obtain ⟨after, isHere, edge'⟩ := regular.succ_pred there edge
    cases here.symm.trans isHere
    exact edge'

end Graph

/-! ## Problems over paths -/

namespace Problem

variable {α : Type} {p : Problem α} {g : Graph} {id last : Nat} {route : List Nat} {a : α}

/-- A block of the route makes the fact, and no block behind it destroys it. -/
def Carries (p : Problem α) (a : α) (route : List Nat) : Prop :=
  Lasts (fun id => a ∈ factsAt p.gen id) (fun id => a ∈ factsAt p.kill id) route

/-- Facts flow forward, and only blocks make them. -/
structure Forward (p : Problem α) : Prop where
  direction : p.direction = .forward
  boundary : ∀ a, a ∉ p.boundary

/-- Facts flow forward and meet by intersection. Nothing is known at the blocks where control comes
in, to which those belong whose address is taken. -/
structure Must (p : Problem α) : Prop extends Forward p where
  meet : p.meet = .intersect
  opened : p.opened = Block.entry

theorem carries_concat : p.Carries a (route ++ [last]) ↔
    a ∈ factsAt p.gen last ∨ a ∉ factsAt p.kill last ∧ p.Carries a route :=
  Lasts.concat_iff

theorem mem_passed_iff {into : Set α} : a ∈ p.passed id into ↔
    a ∈ factsAt p.gen id ∨ a ∉ factsAt p.kill id ∧ a ∈ into := by
  rw [and_comm]
  rfl

namespace Forward

variable {b : Block} {out : Nat → Set α}

/-- At what union meets: what flows out of some block before. -/
theorem mem_met_union (forward : p.Forward) (union : p.meet = .union) (regular : g.Regular)
    (here : g.block? id = some b) : a ∈ p.met b out ↔ ∃ last, id ∈ g.succ last ∧ a ∈ out last := by
  simp only [met, union, Set.mem_ofPred_eq, forward.boundary, and_false, false_or, sources,
    forward.direction, Graph.mem_pred_iff regular here]

variable [DecidableEq α]

theorem flow_eq (forward : p.Forward) (g : Graph) : (p.solution g).flow .forward =
    (p.settle g (p.fuel g) (p.initial g)).flow := by
  rw [← forward.direction, flow_solution]

theorem mem_entryOf (forward : p.Forward) (regular : g.Regular) (here : g.block? id = some b) :
    a ∈ (p.solution g).entryOf id ↔
      a ∈ p.met b fun last => {x | x ∈ (p.solution g).exitOf last} := by
  have solves := (solution_completes (p := p) regular).solves regular
  rw [← forward.flow_eq] at solves
  exact Set.ext_iff.1 (solves id b here).1 a

theorem mem_exitOf (forward : p.Forward) (regular : g.Regular) (here : g.block? id = some b) :
    a ∈ (p.solution g).exitOf id ↔
      a ∈ factsAt p.gen id ∨ a ∉ factsAt p.kill id ∧ a ∈ (p.solution g).entryOf id := by
  have solves := (solution_completes (p := p) regular).solves regular
  rw [← forward.flow_eq] at solves
  exact (Set.ext_iff.1 (solves id b here).2 a).trans mem_passed_iff

theorem mem_exitOf_iff_out (forward : p.Forward) : a ∈ (p.solution g).exitOf id ↔
    a ∈ factsAt (p.settle g (p.fuel g) (p.initial g)).out id :=
  Set.ext_iff.1 (congrFun (congrArg Flow.out (forward.flow_eq g)) id) a

/-! ### Union -/

/-- What some path to a block carries is at its entry. -/
theorem mem_entryOf_of_some (forward : p.Forward) (union : p.meet = .union) (regular : g.Regular)
    (here : g.block? id = some b) (isPath : g.IsPath (route ++ [id]))
    (carries : p.Carries a route) : a ∈ (p.solution g).entryOf id := by
  induction route using List.reverseRecOn generalizing id b with
  | nil => exact absurd carries Lasts.not_nil
  | append_singleton route last ih =>
    obtain ⟨before, edge⟩ := Graph.isPath_concat.1 isPath
    obtain ⟨c, there⟩ := Graph.block?_of_mem_succ edge
    have flows : a ∈ (p.solution g).exitOf last :=
      (forward.mem_exitOf regular there).2 ((carries_concat.1 carries).imp_right
        (And.imp_right (ih there before)))
    exact (forward.mem_entryOf regular here).2
      ((forward.mem_met_union union regular here).2 ⟨last, edge, flows⟩)

/-- What flows out of a block is carried by some path through it. -/
theorem carries_of_mem_exitOf (forward : p.Forward) (union : p.meet = .union) (regular : g.Regular)
    (inside : id < g.size) (member : a ∈ (p.solution g).exitOf id) :
    ∃ route, g.IsPath (route ++ [id]) ∧ p.Carries a (route ++ [id]) := by
  have unassumed : a ∉ p.start := by simp [start, union]
  obtain ⟨run, -⟩ := solution_run (p := p) regular
  refine (Run.least regular (p.order_perm g) run unassumed
    (fun id => {x | x = a ∧ ∃ route, g.IsPath (route ++ [id]) ∧ p.Carries a (route ++ [id])}) ?_ id
    inside (forward.mem_exitOf_iff_out.1 member)).2
  intro id b here passes
  refine ⟨rfl, ?_⟩
  rcases mem_passed_iff.1 passes with made | ⟨kept, flows⟩
  · exact ⟨[], .singleton id, carries_concat.2 (Or.inl made)⟩
  · obtain ⟨last, edge, -, route, isPath, carries⟩ :=
      (forward.mem_met_union union regular here).1 flows
    exact ⟨route ++ [last], Graph.isPath_concat.2 ⟨isPath, edge⟩,
      carries_concat.2 (Or.inr ⟨kept, carries⟩)⟩

/-- If facts meet by union, those at the entry of a block are the ones that some path to it
carries. -/
theorem mem_entryOf_iff_some (forward : p.Forward) (union : p.meet = .union) (regular : g.Regular)
    (here : g.block? id = some b) :
    a ∈ (p.solution g).entryOf id ↔ ∃ route, g.IsPath (route ++ [id]) ∧ p.Carries a route := by
  constructor
  · intro member
    obtain ⟨last, edge, flows⟩ := (forward.mem_met_union union regular here).1
      ((forward.mem_entryOf regular here).1 member)
    obtain ⟨c, there⟩ := Graph.block?_of_mem_succ edge
    obtain ⟨route, isPath, carries⟩ := forward.carries_of_mem_exitOf union regular
      (Graph.lt_size_of_block? there) flows
    exact ⟨route ++ [last], Graph.isPath_concat.2 ⟨isPath, edge⟩, carries⟩
  · rintro ⟨route, isPath, carries⟩
    exact forward.mem_entryOf_of_some union regular here isPath carries

end Forward

/-! ### Intersection -/

namespace Must

variable {b : Block} {out : Nat → Set α}

/-- What intersection meets: what flows out of every block before, unless control comes in. -/
theorem mem_met_inter (must : p.Must) (regular : g.Regular) (here : g.block? id = some b) :
    a ∈ p.met b out ↔ ¬ g.ComesIn id ∧ ∀ last, id ∈ g.succ last → a ∈ out last := by
  have comesIn : p.atBoundary b = true ↔ g.ComesIn id := by
    simp only [Graph.ComesIn, here, Option.some.injEq, exists_eq_left', atBoundary, must.direction,
      must.opened, regular.place here, Bool.or_eq_true, decide_eq_true_eq, List.isEmpty_iff,
      or_assoc]
    rw [or_comm (a := b.pred = [])]
  simp only [met, must.meet, Set.mem_ofPred_eq, must.boundary, imp_false, comesIn, sources,
    must.direction, Graph.mem_pred_iff regular here]

variable [DecidableEq α]

/-- If facts meet by intersection, those at the entry of a block are carried by every path to it
from where control comes in. -/
theorem carries_of_mem_entryOf (must : p.Must) (regular : g.Regular)
    (here : g.block? id = some b) (member : a ∈ (p.solution g).entryOf id)
    (enters : g.Enters route id) : p.Carries a route := by
  induction route using List.reverseRecOn generalizing id b with
  | nil =>
    have meets := (must.mem_entryOf regular here).1 member
    exact absurd (Graph.enters_nil.1 enters) ((must.mem_met_inter regular here).1 meets).1
  | append_singleton route last ih =>
    obtain ⟨before, edge⟩ := Graph.enters_concat.1 enters
    obtain ⟨c, there⟩ := Graph.block?_of_mem_succ edge
    have meets := (must.mem_entryOf regular here).1 member
    have flows := ((must.mem_met_inter regular here).1 meets).2 last edge
    exact carries_concat.2 (((must.mem_exitOf regular there).1 flows).imp_right
      (And.imp_right fun entered => ih there entered before))

/-- A fact that is among all facts there are is at the exits of the blocks of every set that
supports it: blocks that make it, or that do not destroy it and that control enters only from blocks
of the set. -/
theorem mem_exitOf_of_supported (must : p.Must) (regular : g.Regular)
    (known : a ∈ p.everything.getD .empty) (left : Nat → Prop)
    (supported : ∀ id b, g.block? id = some b → left id → a ∈ factsAt p.gen id ∨
      a ∉ factsAt p.kill id ∧ ¬ g.ComesIn id ∧ ∀ last, id ∈ g.succ last → left last)
    (inside : id < g.size) (isLeft : left id) : a ∈ (p.solution g).exitOf id := by
  have assumed : a ∈ p.start := by simpa [start, must.meet] using known
  obtain ⟨run, -⟩ := solution_run (p := p) regular
  refine must.mem_exitOf_iff_out.2 (Run.greatest regular (p.order_perm g) run assumed
    (fun id => {x | x = a ∧ left id}) ?_ id inside ⟨rfl, isLeft⟩)
  rintro id b here ⟨-, isLeft⟩
  refine mem_passed_iff.2 ((supported id b here isLeft).imp_right (And.imp_right ?_))
  rintro ⟨entered, lasts⟩
  exact (must.mem_met_inter regular here).2 ⟨entered, fun last edge => ⟨rfl, lasts last edge⟩⟩

/-- If facts meet by intersection and control can come to every block, a fact that is among all
facts there are is at the exit of every block to the end of which every path carries it. -/
theorem mem_exitOf_of_carries (must : p.Must) (regular : g.Regular)
    (known : a ∈ p.everything.getD .empty)
    (reached : ∀ id < g.size, ∃ route, g.Enters route id) (inside : id < g.size)
    (carried : ∀ route, g.Enters route id → p.Carries a (route ++ [id])) :
    a ∈ (p.solution g).exitOf id := by
  refine must.mem_exitOf_of_supported regular known
    (fun id => ∀ route, g.Enters route id → p.Carries a (route ++ [id])) ?_ inside carried
  intro id b here carried
  refine or_iff_not_imp_left.2 fun unmade => ?_
  -- a block that does not make the fact itself has it from every path to its entry
  have before : ∀ route, g.Enters route id → a ∉ factsAt p.kill id ∧ p.Carries a route :=
    fun route enters => (carries_concat.1 (carried route enters)).resolve_left unmade
  obtain ⟨route, enters⟩ := reached id (Graph.lt_size_of_block? here)
  refine ⟨(before route enters).1, ?_, fun last edge route enters => ?_⟩
  · exact fun comesIn => Lasts.not_nil (before [] (Graph.enters_nil.2 comesIn)).2
  · exact (before (route ++ [last]) (Graph.enters_concat.2 ⟨enters, edge⟩)).2

/-- If facts meet by intersection and control can come to every block, a fact that is among all
facts there are is at the entry of every block to which every path carries it. -/
theorem mem_entryOf_of_carries (must : p.Must) (regular : g.Regular)
    (known : a ∈ p.everything.getD .empty)
    (reached : ∀ id < g.size, ∃ route, g.Enters route id) (here : g.block? id = some b)
    (carried : ∀ route, g.Enters route id → p.Carries a route) :
    a ∈ (p.solution g).entryOf id := by
  refine (must.mem_entryOf regular here).2 ((must.mem_met_inter regular here).2 ⟨?_, ?_⟩)
  · exact fun comesIn => Lasts.not_nil (carried [] (Graph.enters_nil.2 comesIn))
  · intro last edge
    obtain ⟨c, there⟩ := Graph.block?_of_mem_succ edge
    refine must.mem_exitOf_of_carries regular known reached (Graph.lt_size_of_block? there)
      fun route enters => ?_
    exact carried (route ++ [last]) (Graph.enters_concat.2 ⟨enters, edge⟩)

end Must

end Problem

end MipsFlow
