import MipsFlow.Dataflow.Report
import MipsFlow.Proofs.Attempts.Commands
import MipsFlow.Proofs.Attempts.Solving
import MipsFlow.Proofs.Linking
import MipsFlow.Optimizer.View

/-!
# Analysing step by step

The problems are posed with one entry for every block, stored at the place of the block; the
solutions are looked up by the places of the blocks as well. A graph keeps its blocks at their
places, so every entry is stored and found (`analyze_eq`), and facts that span the graph answer
every question about a block of it.
-/

namespace MipsFlow

/-- The facts have an entry for every block. -/
structure Facts.Spans (f : Facts) (g : Graph) : Prop where
  liveEntry : f.live.entry.length = g.size
  liveExit : f.live.exit.length = g.size
  reachEntry : f.reach.entry.length = g.size
  reachExit : f.reach.exit.length = g.size
  copiesEntry : f.copies.entry.length = g.size
  copiesExit : f.copies.exit.length = g.size

theorem Facts.Spans.of_size {f : Facts} {g g' : Graph} (spans : f.Spans g)
    (same : g'.size = g.size) : f.Spans g' := by
  obtain ⟨liveEntry, liveExit, reachEntry, reachExit, copiesEntry, copiesExit⟩ := spans
  constructor <;> rwa [same]

namespace Attempt

variable {g : Graph} {b : Block} {f : Facts}

/-! ## Posing the problems -/

/-- One entry for every block. -/
def fill {β : Type} (g : Graph) (empty : β) (make : Block → Attempt β) : Attempt (List β) :=
  g.blocks.foldlM (fun entries b => do store entries b.id (← make b))
    (List.replicate g.size empty)

theorem fill_eq {β : Type} {empty : β} {make : Block → Attempt β} {made : Block → β}
    (regular : g.Regular) (makes : ∀ b ∈ g.blocks, make b = pure (made b)) :
    fill g empty make = pure (g.blocks.map made) := by
  -- the blocks before the current one have their entries, and the others have none yet
  suffices behind : ∀ done rest, g.blocks = done ++ rest →
      rest.foldlM (fun entries b => do store entries b.id (← make b))
        (done.map made ++ List.replicate rest.length empty) = pure (g.blocks.map made) from
    behind [] g.blocks rfl
  intro done rest split
  induction rest generalizing done with
  | nil => simp [split]
  | cons b rest ih =>
    have here : g.block? done.length = some b := by simp [Graph.block?, split]
    have place := regular.place here
    have entry : (done.map made ++ List.replicate (rest.length + 1) empty).set b.id (made b) =
        (done ++ [b]).map made ++ List.replicate rest.length empty := by
      rw [place, List.set_append_right _ _ (by simp)]
      simp [List.replicate_succ]
    rw [List.foldlM_cons, makes b (split ▸ by simp), pure_bind, List.length_cons,
      store_eq (by simp [place]), pure_bind, entry]
    exact ih (done ++ [b]) (by simp [split])

/-- The registers that the instruction at a position of a block reads. -/
def usesAt (b : Block) (i : Nat) : Attempt (List Reg) := do
  let p ← index b.code i
  let uses ← usesOf p
  if !b.unresolved || i ≠ b.code.length - 1 || !p.isJump then return uses
  else return uses ++ Liveness.forced.filter fun r => !uses.contains r

theorem usesAt_eq {i : Nat} {p : Instr} (here : b.code[i]? = some p) :
    usesAt b i = pure (Liveness.usesBefore b.unresolved p (b.code.drop (i + 1))) := by
  have inside := (List.getElem?_eq_some_iff.1 here).1
  have last : (b.code.drop (i + 1)).isEmpty = decide (i = b.code.length - 1) := by
    rw [Bool.eq_iff_iff, List.isEmpty_iff, List.drop_eq_nil_iff, decide_eq_true_eq]
    omega
  unfold usesAt Liveness.usesBefore
  rw [index_eq here, pure_bind, usesOf_eq, pure_bind, last]
  by_cases isLast : i = b.code.length - 1
  · cases b.unresolved <;> cases p.isJump <;> simp [isLast, Instr.reads]
  · simp [isLast]

/-- What a block reads before it writes it, and what it writes. -/
def useDef (reserved : List Reg) (b : Block) : Attempt (FactSet Reg × FactSet Reg) :=
  (List.range b.code.length).foldlM
    (fun sets i => do
      let p ← index b.code i
      let uses ← usesAt b i
      let defs ← defsOf p
      return (sets.1.insertAll (uses.filter fun r => !sets.2.contains r), sets.2.insertAll defs))
    (.ofList reserved, .empty)

theorem useDef_eq (reserved : List Reg) (b : Block) : useDef reserved b =
    pure (Liveness.useDef b.unresolved (.ofList reserved) .empty b.code) := by
  refine foldlM_places (fun sets code => Liveness.useDef b.unresolved sets.1 sets.2 code)
    (fun sets => rfl) (fun sets i p here => ?_) (.ofList reserved, .empty)
  simp only [index_eq here, usesAt_eq here, defsOf_eq, pure_bind]
  exact ⟨_, rfl, rfl⟩

/-- The problem of live registers. -/
def livenessProblem (g : Graph) (reserved : List Reg) : Attempt (Problem Reg) := do
  let sets ← fill g (.empty, .empty) (useDef reserved)
  return {
    name := "liveness"
    direction := .backward
    meet := .union
    gen := sets.map (·.1)
    kill := sets.map fun s => s.2.diff (.ofList reserved)
    boundary := Liveness.atExit reserved }

theorem livenessProblem_eq (regular : g.Regular) (reserved : List Reg) :
    livenessProblem g reserved = pure (Liveness.problem g reserved) := by
  rw [livenessProblem, fill_eq regular fun b _ => useDef_eq reserved b, pure_bind]
  rfl

/-- The definitions of a sequence. -/
def definitions (code : List Instr) : Attempt (List (Reg × Nat)) := do
  let defs ← code.mapM fun p => do return (← defsOf p).map (·, p.id)
  return defs.flatten

@[simp] theorem definitions_eq (code : List Instr) :
    definitions code = pure (Reaching.definitions code) := by
  have each : ∀ p ∈ code, (do return (← defsOf p).map (·, p.id)) =
      (pure (p.defs.map (·, p.id)) : Attempt (List (Reg × Nat))) :=
    fun p _ => by rw [defsOf_eq, pure_bind]
  rw [definitions, mapM_eq each, pure_bind, ← List.flatMap_def]
  rfl

/-- The definitions that reach the end of a block from inside it, and those that it destroys. -/
def genRivals (all : List (Reg × Nat)) (b : Block) : Attempt (FactSet Nat × FactSet Nat) := do
  let own ← definitions b.code
  let gen := FactSet.ofList ((Reaching.lastOfEach own).map (·.2))
  let written := own.map (·.1)
  let rivals := FactSet.ofList ((all.filter fun d => written.contains d.1).map (·.2))
  return (gen, rivals.diff gen)

theorem genRivals_eq (all : List (Reg × Nat)) (b : Block) : genRivals all b =
    pure (Reaching.gen b, (Reaching.rivals all b).diff (Reaching.gen b)) := by
  rw [genRivals, definitions_eq, pure_bind]
  rfl

/-- The problem of reaching definitions. -/
def reachingProblem (g : Graph) : Attempt (Problem Nat) := do
  let all ← definitions g.flatten
  let sets ← fill g (.empty, .empty) (genRivals all)
  return {
    name := "reaching definitions"
    direction := .forward
    meet := .union
    gen := sets.map (·.1)
    kill := sets.map (·.2)
    boundary := .empty }

theorem reachingProblem_eq (regular : g.Regular) :
    reachingProblem g = pure (Reaching.problem g) := by
  rw [reachingProblem, definitions_eq, pure_bind, fill_eq regular fun b _ => genRivals_eq _ b,
    pure_bind, List.map_map, List.map_map]
  rfl

/-- The copy that an instruction makes. -/
def copyFact (reserved : FactSet Reg) (p : Instr) : Attempt (Option Copy) := do
  match ← copyOf? p with
  | some (dst, src) =>
    if dst = src || reserved.contains dst || reserved.contains src then return none
    else return some ⟨dst, src⟩
  | none => return none

@[simp] theorem copyFact_eq (reserved : FactSet Reg) (p : Instr) :
    copyFact reserved p = pure (Copy.of? reserved p) := by
  unfold copyFact Copy.of?
  rw [copyOf?_eq, pure_bind]
  cases p.copy? with
  | none => rfl
  | some pair => exact (apply_ite pure _ _ _).symm

/-- What an instruction makes of the copies that survive, and of those that are destroyed. -/
def passCopies (reserved : FactSet Reg) (all : FactSet Copy)
    (sets : FactSet Copy × FactSet Copy) (p : Instr) : Attempt (FactSet Copy × FactSet Copy) := do
  let written ← clobbersOf p
  let made ← copyFact reserved p
  return ((sets.1.filter fun c => !c.touches written).insertAll made.toList,
    sets.2.union (all.filter fun c => c.touches written))

/-- The copies that survive a block, and those that it destroys. -/
def genKill (reserved : FactSet Reg) (all : FactSet Copy) (code : List Instr) :
    Attempt (FactSet Copy × FactSet Copy) :=
  code.foldlM (passCopies reserved all) (.empty, .empty)

theorem genKill_eq (reserved : FactSet Reg) (all : FactSet Copy) (code : List Instr) :
    genKill reserved all code = pure (Copies.genKill reserved all .empty .empty code) := by
  suffices any : ∀ gen kill : FactSet Copy, code.foldlM (passCopies reserved all) (gen, kill) =
      pure (Copies.genKill reserved all gen kill code) from any .empty .empty
  induction code with
  | nil => exact fun gen kill => rfl
  | cons p code ih =>
    intro gen kill
    rw [List.foldlM_cons, passCopies, clobbersOf_eq, pure_bind, copyFact_eq, pure_bind, pure_bind,
      ih]
    rfl

/-- The problem of available copies. -/
def copiesProblem (g : Graph) (reserved : List Reg) : Attempt (Problem Copy) := do
  let fixed := FactSet.ofList reserved
  let made ← g.flatten.mapM (copyFact fixed)
  let all := FactSet.ofList (made.filterMap id)
  let sets ← fill g (.empty, .empty) fun b => genKill fixed all b.code
  return {
    name := "available copies"
    direction := .forward
    meet := .intersect
    gen := sets.map (·.1)
    kill := sets.map (·.2)
    boundary := .empty
    everything := some all
    opened := Block.entry }

theorem copiesProblem_eq (regular : g.Regular) (reserved : List Reg) :
    copiesProblem g reserved = pure (Copies.problem g reserved) := by
  have made : g.flatten.mapM (copyFact (.ofList reserved)) =
      pure (g.flatten.map (Copy.of? (.ofList reserved))) := mapM_eq fun p _ => copyFact_eq _ p
  simp only [copiesProblem, made, pure_bind, List.filterMap_map, Function.id_comp]
  rw [fill_eq regular fun b _ => genKill_eq _ _ b.code, pure_bind]
  rfl

/-! ## Analysing -/

/-- Analyses a graph. -/
def analyze (g : Graph) (reserved : List Reg) : Attempt Facts := do
  let live ← solve (← livenessProblem g reserved) g
  let reach ← solve (← reachingProblem g) g
  let copies ← solve (← copiesProblem g reserved) g
  return { reserved := .ofList reserved, live, reach, copies }

/-- Nothing goes wrong when a regular graph is analysed. -/
theorem analyze_eq (regular : g.Regular) (reserved : List Reg) :
    analyze g reserved = pure (Facts.analyze g reserved) := by
  have live : (Liveness.problem g reserved).fault? g = none := by
    simp [Problem.fault?, Liveness.problem, Graph.size]
  have reach : (Reaching.problem g).fault? g = none := by
    simp [Problem.fault?, Reaching.problem, Graph.size]
  have copies : (Copies.problem g reserved).fault? g = none := by
    simp [Problem.fault?, Copies.problem, Graph.size]
  simp only [analyze, livenessProblem_eq regular, reachingProblem_eq regular,
    copiesProblem_eq regular, solve_eq regular live, solve_eq regular reach,
    solve_eq regular copies, pure_bind]
  rfl

theorem length_solution {α : Type} [DecidableEq α] (p : Problem α) (regular : g.Regular) :
    (p.solution g).entry.length = g.size ∧ (p.solution g).exit.length = g.size := by
  obtain ⟨run, -⟩ := Problem.solution_run (p := p) regular
  obtain ⟨inv, -⟩ := Problem.Invariant.run regular (.initial (p.order_perm g)) run
  unfold Problem.solution
  cases p.direction with
  | forward => exact ⟨inv.intoLength, inv.outLength⟩
  | backward => exact ⟨inv.outLength, inv.intoLength⟩

theorem spans_analyze (regular : g.Regular) (reserved : List Reg) :
    (Facts.analyze g reserved).Spans g where
  liveEntry := (length_solution _ regular).1
  liveExit := (length_solution _ regular).2
  reachEntry := (length_solution _ regular).1
  reachExit := (length_solution _ regular).2
  copiesEntry := (length_solution _ regular).1
  copiesExit := (length_solution _ regular).2

/-! ## Questions -/

/-- The register is dead before the instruction at a position of a block. -/
def deadFrom (f : Facts) (b : Block) (start : Nat) (r : Reg) : Attempt Bool :=
  if f.reserved.contains r then return false
  else
    loop (fun i => do
      if i < b.code.length then
        if (← usesAt b i).contains r then return .inr false
        else if (← defsOf (← index b.code i)).contains r then return .inr true
        else return .inl (i + 1)
      else return .inr !(← index f.live.exit b.id).contains r) start

/-- The definition made by the instruction reaches the exit of the block. -/
def reaches (f : Facts) (b : Block) (p : Instr) : Attempt Bool :=
  return (← index f.reach.exit b.id).contains p.id

/-- The copy holds at the entry of the block. -/
def available (f : Facts) (b : Block) (c : Copy) : Attempt Bool :=
  return (← index f.copies.entry b.id).contains c

theorem index_getD {α : Type} {xs : List (FactSet α)} {i : Nat} (inside : i < xs.length) :
    index xs i = pure ((xs[i]?).getD ⟨[]⟩) := by
  have here := List.getElem?_eq_getElem inside
  rw [index_eq here, here, Option.getD_some]

theorem deadFrom_eq (known : b.id < f.live.exit.length) (annotated : Bool) (start : Nat) (r : Reg) :
    deadFrom f b start r = pure ((f.view annotated b).dead (b.code.drop start) r) := by
  have exit : index f.live.exit b.id = pure (f.liveOut b) := index_getD known
  unfold deadFrom View.dead
  show _ = pure (!f.reserved.contains r &&
    Liveness.deadIn b.unresolved (f.liveOut b) r (b.code.drop start))
  cases f.reserved.contains r with
  | true => rfl
  | false =>
    rw [if_neg Bool.false_ne_true, Bool.not_false, Bool.true_and]
    suffices ends : ∃ answer, loop _ start = pure answer ∧
        answer = Liveness.deadIn b.unresolved (f.liveOut b) r (b.code.drop start) by
      obtain ⟨answer, ends, same⟩ := ends
      rw [ends, same]
    refine loop_ends
      (fun i => Liveness.deadIn b.unresolved (f.liveOut b) r (b.code.drop i) =
        Liveness.deadIn b.unresolved (f.liveOut b) r (b.code.drop start))
      (fun i => b.code.length - i) _ (fun i same => ?_) rfl
    by_cases inside : i < b.code.length
    · have here := List.getElem?_eq_getElem inside
      rw [List.drop_eq_getElem_cons inside, Liveness.deadIn, Instr.writes] at same
      simp only [if_pos inside, usesAt_eq here, index_eq here, defsOf_eq, pure_bind]
      split
      · next read =>
        rw [read, Bool.not_true, Bool.false_and] at same
        exact Or.inr ⟨false, rfl, same⟩
      · next unread =>
        rw [Bool.not_eq_true _ |>.mp unread, Bool.not_false, Bool.true_and] at same
        split
        · next written =>
          rw [written, Bool.true_or] at same
          exact Or.inr ⟨true, rfl, same⟩
        · next unwritten =>
          rw [Bool.not_eq_true _ |>.mp unwritten, Bool.false_or] at same
          exact Or.inl ⟨i + 1, rfl, same, by omega⟩
    · rw [List.drop_of_length_le (by omega), Liveness.deadIn] at same
      refine Or.inr ⟨_, ?_, same⟩
      simp only [if_neg inside, exit, pure_bind]

theorem reaches_eq (known : b.id < f.reach.exit.length) (p : Instr) :
    reaches f b p = pure (f.reaches b p) := by
  rw [reaches, index_getD known, pure_bind]
  rfl

theorem available_eq (known : b.id < f.copies.entry.length) (c : Copy) :
    available f b c = pure (f.available b c) := by
  rw [available, index_getD known, pure_bind]
  rfl

/-! ## Reports -/

/-- The name of a register without its first character. -/
def bareName (r : Reg) : Attempt (List Char) :=
  match r.name.toList with
  | _ :: bare => return bare
  | [] => throw (.fault .emptyText)

/-- Registers in listing order, which is that of their names without the first characters. -/
def listRegs (s : FactSet Reg) : Attempt (List Reg) := do
  let _ ← s.members.mapM bareName
  return BlockFacts.listRegs s

/-- The facts of a block. -/
def collect (f : Facts) (b : Block) : Attempt BlockFacts := do
  let liveIn ← listRegs (← index f.live.entry b.id)
  let liveOut ← listRegs (← index f.live.exit b.id)
  let reachIn ← index f.reach.entry b.id
  let reachOut ← index f.reach.exit b.id
  let copiesIn ← index f.copies.entry b.id
  let copiesOut ← index f.copies.exit b.id
  return {
    block := b.id
    succ := b.succ
    pred := b.pred
    liveIn
    liveOut
    reachIn := BlockFacts.listIds reachIn
    reachOut := BlockFacts.listIds reachOut
    copiesIn := BlockFacts.listCopies copiesIn
    copiesOut := BlockFacts.listCopies copiesOut }

/-- The name of a register begins with a dollar sign. -/
theorem bareName_eq (r : Reg) : bareName r = pure r.name.toList.tail := by
  have nonempty : r.name.toList ≠ [] := by
    unfold Reg.name
    split
    · split
      · decide
      · split
        · decide
        · split
          · decide
          · simp
    all_goals simp
  unfold bareName
  cases name : r.name.toList with
  | nil => exact absurd name nonempty
  | cons c bare => rfl

theorem listRegs_eq (s : FactSet Reg) : listRegs s = pure (BlockFacts.listRegs s) := by
  rw [listRegs, mapM_eq fun r _ => bareName_eq r, pure_bind]

theorem collect_eq (spans : f.Spans g) (inside : b.id < g.size) :
    collect f b = pure (BlockFacts.collect f b) := by
  simp only [collect, listRegs_eq, pure_bind,
    index_getD (spans.liveEntry.symm ▸ inside), index_getD (spans.liveExit.symm ▸ inside),
    index_getD (spans.reachEntry.symm ▸ inside), index_getD (spans.reachExit.symm ▸ inside),
    index_getD (spans.copiesEntry.symm ▸ inside), index_getD (spans.copiesExit.symm ▸ inside)]
  rfl

end Attempt

end MipsFlow
