import MipsFlow.Proofs.LiveFlow

/-!
# Live registers and paths

A register that is not reserved is live at the entry of a block if and only if some path from there
reads it before writing it, or leaves the program without writing it where it is live at the end:
`live_iff_path`. Reserved registers are live everywhere.

A block reads and writes registers one instruction after the other (`Block.accesses`); what the
analysis collects about a block, and what it knows at places inside, both say whether a register is
read first or not written at all (`mem_useDef`, `mem_liveIn`). So the solution of the analysis
satisfies the equations `mem_exitOf` and `mem_entryOf`. Paths satisfy the same equations, one edge
at a time (`livePath_iff`), and the solution of the analysis is the least one (`live_least`).
-/

namespace MipsFlow

/-- What an instruction reads, and what it certainly writes. -/
structure Access where
  reads : List Reg
  writes : List Reg

namespace Access

variable {r : Reg} {a : Access} {first second : List Access}

/-- The register is read before it is written. -/
def ReadFirst (r : Reg) (accesses : List Access) : Prop :=
  ∃ before a after, accesses = before ++ a :: after ∧ r ∈ a.reads ∧ ∀ x ∈ before, r ∉ x.writes

/-- The register is not written. -/
def Unwritten (r : Reg) (accesses : List Access) : Prop := ∀ a ∈ accesses, r ∉ a.writes

@[simp] theorem not_readFirst_nil : ¬ ReadFirst r [] := by
  rintro ⟨before, a, after, split, -⟩
  simp at split

@[simp] theorem readFirst_cons :
    ReadFirst r (a :: second) ↔ r ∈ a.reads ∨ r ∉ a.writes ∧ ReadFirst r second := by
  constructor
  · rintro ⟨before, x, after, split, read, unwritten⟩
    cases before with
    | nil =>
      obtain ⟨rfl, -⟩ := List.cons.inj split
      exact Or.inl read
    | cons y before =>
      obtain ⟨rfl, rest⟩ := List.cons.inj split
      exact Or.inr ⟨unwritten a (by simp), before, x, after, rest, read,
        fun z member => unwritten z (by simp [member])⟩
  · rintro (read | ⟨here, before, x, after, rfl, read, unwritten⟩)
    · exact ⟨[], a, second, rfl, read, by simp⟩
    · refine ⟨a :: before, x, after, rfl, read, fun z member => ?_⟩
      rcases List.mem_cons.1 member with rfl | behind
      · exact here
      · exact unwritten z behind

@[simp] theorem unwritten_nil : Unwritten r [] := by simp [Unwritten]

@[simp] theorem unwritten_cons :
    Unwritten r (a :: second) ↔ r ∉ a.writes ∧ Unwritten r second := by
  simp [Unwritten]

theorem unwritten_append :
    Unwritten r (first ++ second) ↔ Unwritten r first ∧ Unwritten r second := by
  simp [Unwritten, or_imp, forall_and]

theorem readFirst_append :
    ReadFirst r (first ++ second) ↔
      ReadFirst r first ∨ Unwritten r first ∧ ReadFirst r second := by
  induction first with
  | nil => simp
  | cons a rest ih =>
    rw [List.cons_append, readFirst_cons, readFirst_cons, unwritten_cons, ih]
    grind

end Access

open Access

/-! ## The accesses of a block -/

namespace Liveness

variable {reserved out : FactSet Reg} {unresolved : Bool} {code : List Instr} {r : Reg}

/-- What the instructions of a list read and write, one after the other. -/
def accesses (unresolved : Bool) : List Instr → List Access
  | [] => []
  | p :: rest => ⟨usesBefore unresolved p rest, p.defs⟩ :: accesses unresolved rest

/-- The summary of some code has the registers that are read first and those that are written. -/
theorem mem_useDef (unresolved : Bool) (use defined : FactSet Reg) (code : List Instr) :
    (r ∈ (useDef unresolved use defined code).1 ↔
      r ∈ use ∨ r ∉ defined ∧ ReadFirst r (accesses unresolved code)) ∧
    (r ∈ (useDef unresolved use defined code).2 ↔
      r ∈ defined ∨ ¬ Unwritten r (accesses unresolved code)) := by
  induction code generalizing use defined with
  | nil => simp [useDef, accesses]
  | cons p rest ih =>
    obtain ⟨reads, writes⟩ := ih
      (use.insertAll ((usesBefore unresolved p rest).filter fun r => !defined.contains r))
      (defined.insertAll p.defs)
    simp only [useDef, accesses, readFirst_cons, unwritten_cons]
    rw [reads, writes]
    simp only [FactSet.mem_insertAll, List.mem_filter, Bool.not_eq_true', Bool.eq_false_iff, ne_eq,
      FactSet.contains_iff]
    constructor <;> grind

/-- A register that is not reserved is live before some code if it is read first there, or not
written and live behind it. -/
theorem mem_liveIn (free : r ∉ reserved) :
    r ∈ liveIn reserved unresolved out code ↔
      ReadFirst r (accesses unresolved code) ∨
        Unwritten r (accesses unresolved code) ∧ r ∈ out := by
  induction code with
  | nil => simp [liveIn, accesses]
  | cons p rest ih =>
    rw [mem_liveIn_cons, ih, accesses, readFirst_cons, unwritten_cons]
    grind

end Liveness

/-- What the instructions of a block read and write, one after the other. -/
def Block.accesses (b : Block) : List Access := b.code.mapIdx fun i p => ⟨b.usesAt i, p.defs⟩

theorem Block.accesses_eq (b : Block) : b.accesses = Liveness.accesses b.unresolved b.code := by
  have rest : ∀ code : List Instr,
      (code.mapIdx fun i p => Access.mk (Block.usesAt { b with code } i) p.defs) =
        Liveness.accesses b.unresolved code := by
    intro code
    induction code with
    | nil => rfl
    | cons p rest ih => simpa [List.mapIdx_cons, Block.usesAt, Liveness.accesses] using ih
  exact rest b.code

/-! ## The equations of the analysis -/

section Equations

variable {g : Graph} {reserved : List Reg} {id : Nat} {b : Block} {r : Reg}

/-- The register is live where control leaves the program from the block, or is so at the entry of
a successor. -/
def Block.LeavesLive (b : Block) (reserved : List Reg) (r : Reg) (entered : Nat → Prop) : Prop :=
  (b.succ = [] ∧ r ∈ Liveness.atExit reserved) ∨ ∃ next ∈ b.succ, entered next

theorem mem_met_live {live : Nat → Set Reg} :
    r ∈ (Liveness.problem g reserved).met b live ↔
      b.LeavesLive reserved r fun next => r ∈ live next := by
  have meet : (Liveness.problem g reserved).meet = .union := rfl
  have boundary : (Liveness.problem g reserved).atBoundary b = true ↔ b.succ = [] := by
    simp [Problem.atBoundary, Liveness.problem]
  simp only [Problem.met, meet, Set.mem_ofPred_eq, boundary]
  rfl

theorem mem_passed_live (here : g.block? id = some b) {into : Set Reg} :
    r ∈ (Liveness.problem g reserved).passed id into ↔
      r ∈ reserved ∨ ReadFirst r b.accesses ∨ Unwritten r b.accesses ∧ r ∈ into := by
  obtain ⟨reads, writes⟩ :=
    Liveness.mem_useDef (r := r) b.unresolved (.ofList reserved) .empty b.code
  simp only [Problem.passed, Set.mem_union, Set.mem_sdiff, Set.mem_ofPred_eq, gen_live here,
    kill_live here, reads, FactSet.mem_diff, writes, ← b.accesses_eq, FactSet.mem_ofList,
    FactSet.not_mem_empty]
  grind

/-- Fresh facts solve the equations. -/
theorem live_solves (regular : g.Regular) : (Liveness.problem g reserved).Solves g
    ((Facts.analyze g reserved).live.flow .backward) := by
  have flow := Problem.flow_solution (Liveness.problem g reserved) g
  exact flow ▸ (Problem.solution_completes regular).solves regular

theorem mem_exitOf (regular : g.Regular) (here : g.block? id = some b) :
    r ∈ (Facts.analyze g reserved).live.exitOf id ↔
      b.LeavesLive reserved r fun next => r ∈ (Facts.analyze g reserved).live.entryOf next :=
  (Set.ext_iff.1 (live_solves regular id b here).1 r).trans mem_met_live

theorem mem_entryOf (regular : g.Regular) (here : g.block? id = some b) :
    r ∈ (Facts.analyze g reserved).live.entryOf id ↔
      r ∈ reserved ∨ ReadFirst r b.accesses ∨
        Unwritten r b.accesses ∧ r ∈ (Facts.analyze g reserved).live.exitOf id :=
  (Set.ext_iff.1 (live_solves regular id b here).2 r).trans (mem_passed_live here)

/-- A register that is not reserved is live only at blocks of every set that is closed under the
equations. -/
theorem live_least (regular : g.Regular) (free : r ∉ reserved) (entered : Nat → Prop)
    (closed : ∀ id b, g.block? id = some b → (ReadFirst r b.accesses ∨
      Unwritten r b.accesses ∧ b.LeavesLive reserved r entered) → entered id)
    (inside : id < g.size) (live : r ∈ (Facts.analyze g reserved).live.entryOf id) :
    entered id := by
  let p := Liveness.problem g reserved
  have unassumed : r ∉ p.start := FactSet.not_mem_empty
  obtain ⟨run, -⟩ := Problem.solution_run (p := p) regular
  refine (Problem.Run.least regular (p.order_perm g) run unassumed
    (fun id => {x | x = r ∧ entered id}) ?_ id inside live).2
  intro id b here passes
  rw [mem_passed_live here, mem_met_live] at passes
  refine ⟨rfl, closed id b here ((passes.resolve_left free).imp_right (And.imp_right ?_))⟩
  exact Or.imp_right fun ⟨next, edge, known⟩ => ⟨next, edge, known.2⟩

/-- Reserved registers are live at the entry and at the exit of every block. -/
theorem reserved_live (regular : g.Regular) (here : g.block? id = some b) (fixed : r ∈ reserved) :
    r ∈ (Facts.analyze g reserved).live.entryOf id ∧
      r ∈ (Facts.analyze g reserved).live.exitOf id := by
  refine ⟨(mem_entryOf regular here).2 (Or.inl fixed), (mem_exitOf regular here).2 ?_⟩
  cases edges : b.succ with
  | nil => exact Or.inl ⟨edges, by simp [Liveness.atExit, fixed]⟩
  | cons next rest =>
    have edge : next ∈ b.succ := by simp [edges]
    obtain ⟨after, there, -⟩ := regular.succ_pred here edge
    exact Or.inr ⟨next, edge, (mem_entryOf regular there).2 (Or.inl fixed)⟩

/-- A register is live at a place in a block if it is reserved, if the rest of the block reads it
first, or if the rest does not write it and it is live behind the block. -/
theorem mem_liveAt (regular : g.Regular) (here : g.block? id = some b) (i : Nat) :
    r ∈ (Facts.analyze g reserved).liveAt b i ↔
      r ∈ reserved ∨ ReadFirst r (Liveness.accesses b.unresolved (b.code.drop i)) ∨
        Unwritten r (Liveness.accesses b.unresolved (b.code.drop i)) ∧
          b.LeavesLive reserved r fun next => r ∈ (Facts.analyze g reserved).live.entryOf next := by
  have place : b.id = id := regular.place here
  rw [← mem_exitOf regular here, Facts.liveAt, Facts.liveOut, place]
  by_cases fixed : r ∈ reserved
  · simp only [fixed, true_or, iff_true]
    exact Liveness.mem_liveIn_of_fixed (FactSet.mem_ofList.2 fixed)
      (reserved_live regular here fixed).2
  · have free : r ∉ (Facts.analyze g reserved).reserved := by
      simpa [Facts.analyze] using fixed
    rw [or_iff_right fixed, Liveness.mem_liveIn free]

end Equations

/-! ## Paths -/

namespace Graph

variable {g : Graph} {reserved : List Reg} {id next : Nat} {rest : List Nat} {b : Block} {r : Reg}

/-- The places follow each other along edges. -/
def IsPath (g : Graph) (path : List Nat) : Prop := path.IsChain fun id next => next ∈ g.succ id

instance (g : Graph) (path : List Nat) : Decidable (g.IsPath path) :=
  inferInstanceAs (Decidable (path.IsChain fun id next => next ∈ g.succ id))

/-- What the instructions along some places read and write. -/
def accesses (g : Graph) (path : List Nat) : List Access :=
  path.flatMap fun id => (g.block? id).elim [] Block.accesses

/-- Along the places the register is read before it is written, or it is not written, they end at a
block without successors, and it is live where the program ends. -/
def Needs (g : Graph) (reserved : List Reg) (r : Reg) (path : List Nat) : Prop :=
  ReadFirst r (g.accesses path) ∨ Unwritten r (g.accesses path) ∧
    (∃ last, path.getLast? = some last ∧ g.succ last = []) ∧ r ∈ Liveness.atExit reserved

/-- Some path from the block needs the register. -/
def LivePath (g : Graph) (reserved : List Reg) (r : Reg) (id : Nat) : Prop :=
  ∃ rest, g.IsPath (id :: rest) ∧ g.Needs reserved r (id :: rest)

theorem succ_eq (here : g.block? id = some b) : g.succ id = b.succ := by
  simp [Graph.succ, here]

theorem accesses_cons (here : g.block? id = some b) :
    g.accesses (id :: rest) = b.accesses ++ g.accesses rest := by
  simp [accesses, here]

theorem needs_single (here : g.block? id = some b) : g.Needs reserved r [id] ↔
    ReadFirst r b.accesses ∨
      Unwritten r b.accesses ∧ b.succ = [] ∧ r ∈ Liveness.atExit reserved := by
  have alone : g.accesses [id] = b.accesses := by simp [accesses, here]
  simp [Needs, alone, succ_eq here]

theorem needs_cons (here : g.block? id = some b) : g.Needs reserved r (id :: next :: rest) ↔
    ReadFirst r b.accesses ∨ Unwritten r b.accesses ∧ g.Needs reserved r (next :: rest) := by
  unfold Needs
  rw [accesses_cons here, readFirst_append, unwritten_append, List.getLast?_cons_cons]
  grind

/-- Paths satisfy the equations of the analysis. -/
theorem livePath_iff (here : g.block? id = some b) : g.LivePath reserved r id ↔
    ReadFirst r b.accesses ∨
      Unwritten r b.accesses ∧ b.LeavesLive reserved r fun next => g.LivePath reserved r next := by
  constructor
  · rintro ⟨_ | ⟨next, rest⟩, isPath, needs⟩
    · exact ((needs_single here).1 needs).imp_right (And.imp_right Or.inl)
    · obtain ⟨edge, behind⟩ := List.isChain_cons_cons.1 isPath
      rw [succ_eq here] at edge
      exact ((needs_cons here).1 needs).imp_right
        (And.imp_right fun needs => Or.inr ⟨next, edge, rest, behind, needs⟩)
  · rintro (read | ⟨unwritten, ⟨none, ends⟩ | ⟨next, edge, rest, isPath, needs⟩⟩)
    · exact ⟨[], .singleton id, (needs_single here).2 (Or.inl read)⟩
    · exact ⟨[], .singleton id,
        (needs_single here).2 (Or.inr ⟨unwritten, none, ends⟩)⟩
    · refine ⟨next :: rest, List.isChain_cons_cons.2 ⟨(succ_eq here).symm ▸ edge, isPath⟩, ?_⟩
      exact (needs_cons here).2 (Or.inr ⟨unwritten, needs⟩)

/-- What some path needs is live. -/
theorem live_of_needs (regular : g.Regular) (path : List Nat) (here : g.block? id = some b)
    (isPath : g.IsPath (id :: path)) (needs : g.Needs reserved r (id :: path)) :
    r ∈ (Facts.analyze g reserved).live.entryOf id := by
  induction path generalizing id b with
  | nil =>
    refine (mem_entryOf regular here).2 (Or.inr (((needs_single here).1 needs).imp_right ?_))
    exact And.imp_right fun ends => (mem_exitOf regular here).2 (Or.inl ends)
  | cons next rest ih =>
    obtain ⟨edge, behind⟩ := List.isChain_cons_cons.1 isPath
    rw [succ_eq here] at edge
    obtain ⟨after, there, -⟩ := regular.succ_pred here edge
    refine (mem_entryOf regular here).2 (Or.inr (((needs_cons here).1 needs).imp_right ?_))
    exact And.imp_right fun needs =>
      (mem_exitOf regular here).2 (Or.inr ⟨next, edge, ih there behind needs⟩)

end Graph

/-- In every program, a register that is not reserved is live at the entry of a block if and only if
along some path from there an instruction reads it before any writes it, or no instruction of a path
to a block without successors writes it and it is live where the program ends. Reserved registers
are live at the entry and at the exit of every block. -/
theorem live_iff_path (code : List Instr) (reserved : List Reg) {id : Nat} {b : Block}
    (here : (Graph.build code).block? id = some b) (r : Reg) :
    (r ∉ reserved → (r ∈ (Facts.analyze (Graph.build code) reserved).live.entryOf id ↔
      ∃ rest, (Graph.build code).IsPath (id :: rest) ∧
        (Graph.build code).Needs reserved r (id :: rest))) ∧
    (r ∈ reserved → r ∈ (Facts.analyze (Graph.build code) reserved).live.entryOf id ∧
      r ∈ (Facts.analyze (Graph.build code) reserved).live.exitOf id) := by
  have regular := Graph.build_regular code
  refine ⟨fun free => ⟨fun live => ?_, ?_⟩, fun fixed => reserved_live regular here fixed⟩
  · refine live_least regular free ((Graph.build code).LivePath reserved r) ?_
      (Graph.lt_size_of_block? here) live
    exact fun id b here equations => (Graph.livePath_iff here).2 equations
  · rintro ⟨rest, isPath, needs⟩
    exact Graph.live_of_needs regular rest here isPath needs

/-- In a loop that counts down, a path from its block reads the counter, and none of the paths,
which go around any number of times, needs a register that the loop overwrites. -/
theorem live_iff_path_loop :
    let general (n : Fin 32) := Operand.reg (.general n)
    let code : List Instr := [.ofCommand 1 (.loadImm (.general 8) 2), ⟨2, .label "Loop", "", []⟩,
      .ofCommand 3 (.ofOpcode .addu [general 9, general 8, general 8]),
      .ofCommand 4 (.ofOpcode .addiu [general 8, general 8, .imm (-1)]),
      .ofCommand 5 (.ofOpcode .bne [general 8, general 9, .sym "Loop"]),
      .ofCommand 6 (.ofOpcode .jr [.reg Reg.link])]
    let g := Graph.build code
    (∃ rest, g.IsPath (1 :: rest) ∧ g.Needs [] (.general 8) (1 :: rest)) ∧
      ¬ ∃ rest, g.IsPath (1 :: rest) ∧ g.Needs [] (.general 9) (1 :: rest) := by
  intro general code g
  obtain ⟨b, here⟩ : ∃ b, g.block? 1 = some b := Graph.block?_of_lt_size (by decide +kernel)
  have counter : Reg.general 8 ∈ (Facts.analyze g []).live.entryOf 1 := by decide +kernel
  have overwritten : Reg.general 9 ∉ (Facts.analyze g []).live.entryOf 1 := by decide +kernel
  exact ⟨((live_iff_path code [] here (.general 8)).1 List.not_mem_nil).1 counter,
    fun path => overwritten (((live_iff_path code [] here (.general 9)).1 List.not_mem_nil).2 path)⟩

end MipsFlow
