import MipsFlow.Proofs.BlockPass
import MipsFlow.Proofs.RunsAlike

/-!
# Graphs whose edges follow their jumps

A graph is *wired* if every block is left only by its last instruction, and has an edge to wherever
it may be left: to the block that the target of a jump leads, to the next block behind a branch or
where there is no jump, and nowhere behind a return. So is the graph of a program that the machine
runs, if every target is declared once and the last command returns: `build_wired`. Reworking the
code of blocks keeps a graph wired: `Recoded.wired`.
-/

namespace MipsFlow

/-- The machine runs the code of every block. -/
def Graph.Runs (g : Graph) : Prop :=
  ∀ {id : Nat} {b : Block}, g.block? id = some b → ∀ p ∈ b.code, Machine.Runs p

/-- The second graph differs from the first in code that was reworked, and that the machine runs. -/
structure Graph.Recoded (g g' : Graph) : Prop where
  shape : g.SameShape g'
  reworked : ∀ {id : Nat} {b b' : Block}, g.block? id = some b → g'.block? id = some b' →
    Reworked b.code b'.code
  runs : g'.Runs

/-- The label leads the block at the place, and is not declared in a block before it. -/
structure Graph.StartsAt (g : Graph) (label : String) (place : Nat) : Prop where
  leads : ∃ b, g.block? place = some b ∧ LedBy label b.code
  first : ∀ {id : Nat} {b : Block}, id < place → g.block? id = some b →
    label ∉ Graph.declared b.code

/-- Blocks are left at their ends only, along edges, and labels are at the given places. -/
structure Graph.Laid (g : Graph) (places : String → Option Nat) : Prop where
  regular : g.Regular
  resolved : ∀ {id : Nat} {b : Block}, g.block? id = some b → b.unresolved = false
  last : ∀ {id : Nat} {b : Block}, g.block? id = some b → JumpsLast b.code
  falls : ∀ {id : Nat} {b : Block}, g.block? id = some b → exits b.code = [] →
    b.succ = if id + 1 < g.size then [id + 1] else []
  returns : ∀ {id : Nat} {b : Block} {e : Exit}, g.block? id = some b → e ∈ exits b.code →
    e.returns = true → b.succ = []
  jumps : ∀ {id : Nat} {b : Block} {e : Exit} {label : String}, g.block? id = some b →
    e ∈ exits b.code → e.target? = some label →
    ∃ place, places label = some place ∧ place ∈ b.succ ∧ g.StartsAt label place
  branches : ∀ {id : Nat} {b : Block} {e : Exit}, g.block? id = some b → e ∈ exits b.code →
    e.op? = some .beq ∨ e.op? = some .bne → id + 1 ∈ b.succ

/-- The graph is laid out like that, and the machine runs its code. -/
structure Graph.Wired (g : Graph) (places : String → Option Nat) : Prop extends g.Laid places where
  runs : g.Runs

theorem Graph.Wired.known {g : Graph} {places : String → Option Nat} (wired : g.Wired places) :
    g.All fun p => p.isKnown = true :=
  fun here p member => (wired.runs here p member).isKnown

/-! ## Recoding -/

theorem Graph.SameShape.size_eq {g g' : Graph} (same : g.SameShape g') : g'.size = g.size := by
  have missing : ∀ id, g.size ≤ id ↔ g'.size ≤ id := by
    intro id
    have shape := congrArg Option.isNone (same id)
    rw [Option.isNone_map, Option.isNone_map] at shape
    have none : ∀ h : Graph, (h.block? id).isNone = true ↔ h.size ≤ id := fun h => by
      rw [Option.isNone_iff_eq_none]
      exact List.getElem?_eq_none_iff
    rw [← none g, ← none g', shape]
  exact Nat.le_antisymm ((missing _).1 (Nat.le_refl _)) ((missing _).2 (Nat.le_refl _))

theorem Reworked.append {a a' b b' : List Instr} (first : Reworked a a') (second : Reworked b b') :
    Reworked (a ++ b) (a' ++ b') := by
  have front := first.around [] b
  have back := second.around a' []
  simp only [List.nil_append, List.append_nil] at front back
  exact front.trans back

namespace Graph

variable {g g' g'' : Graph} {places : String → Option Nat} {label : String} {place : Nat}

/-- Reworking the blocks of a graph reworks its program. -/
theorem SameShape.flatten_reworked (shape : g.SameShape g')
    (reworked : ∀ {id : Nat} {b b' : Block}, g.block? id = some b → g'.block? id = some b' →
      Reworked b.code b'.code) : Reworked g.flatten g'.flatten := by
  have lists : ∀ bs bs' : List Block, bs'.length = bs.length →
      (∀ (i : Nat) (b b' : Block), bs[i]? = some b → bs'[i]? = some b' →
        Reworked b.code b'.code) →
      Reworked (bs.flatMap Block.code) (bs'.flatMap Block.code) := by
    intro bs
    induction bs with
    | nil =>
      intro bs' lengths _
      rw [List.length_eq_zero_iff.1 lengths]
      exact .refl []
    | cons b bs ih =>
      intro bs' lengths reworked
      cases bs' with
      | nil => simp at lengths
      | cons b' bs' =>
        rw [List.flatMap_cons, List.flatMap_cons]
        refine (reworked 0 b b' rfl rfl).append (ih bs' (by simpa using lengths) ?_)
        exact fun i c c' here there => reworked (i + 1) c c' here there
  exact lists g.blocks g'.blocks shape.size_eq fun i b b' here there => reworked here there

/-- Labels stay where they are when blocks are reworked. -/
theorem StartsAt.reworked (starts : g.StartsAt label place) (shape : g.SameShape g')
    (reworked : ∀ {id : Nat} {b b' : Block}, g.block? id = some b → g'.block? id = some b' →
      Reworked b.code b'.code) : g'.StartsAt label place := by
  obtain ⟨⟨b, here, leads⟩, first⟩ := starts
  refine ⟨?_, ?_⟩
  · obtain ⟨code, there⟩ := shape.block? here
    exact ⟨_, there, (reworked here there).ledBy leads⟩
  · intro id b' before there
    obtain ⟨code, isOld⟩ := shape.symm.block? there
    unfold declared
    rw [(reworked isOld there).labels_eq]
    exact first before isOld

/-- Reworking the blocks of a graph leaves its layout. -/
theorem Laid.reworked (laid : g.Laid places) (shape : g.SameShape g')
    (reworked : ∀ {id : Nat} {b b' : Block}, g.block? id = some b → g'.block? id = some b' →
      Reworked b.code b'.code) : g'.Laid places := by
  have old : ∀ {id : Nat} {b' : Block}, g'.block? id = some b' → ∃ b, g.block? id = some b ∧
      b'.succ = b.succ ∧ b'.unresolved = b.unresolved ∧ exits b'.code = exits b.code ∧
      Reworked b.code b'.code := by
    intro id b' there
    obtain ⟨code, here⟩ := shape.symm.block? there
    have reworkedHere := reworked here there
    exact ⟨_, here, rfl, rfl, reworkedHere.exits_eq, reworkedHere⟩
  refine ⟨shape.regular laid.regular, ?_, ?_, ?_, ?_, ?_, ?_⟩
  · intro id b' there
    obtain ⟨b, here, -, unresolved, -⟩ := old there
    rw [unresolved, laid.resolved here]
  · intro id b' there
    obtain ⟨b, here, -, -, -, reworkedHere⟩ := old there
    exact reworkedHere.jumpsLast (laid.last here)
  · intro id b' there none
    obtain ⟨b, here, succ, -, exits, -⟩ := old there
    rw [succ, shape.size_eq]
    exact laid.falls here (exits ▸ none)
  · intro id b' e there member returns
    obtain ⟨b, here, succ, -, exits, -⟩ := old there
    rw [succ]
    exact laid.returns here (exits ▸ member) returns
  · intro id b' e label there member target
    obtain ⟨b, here, succ, -, exits, -⟩ := old there
    obtain ⟨place, isPlace, edge, starts⟩ := laid.jumps here (exits ▸ member) target
    exact ⟨place, isPlace, succ ▸ edge, starts.reworked shape reworked⟩
  · intro id b' e there member branches
    obtain ⟨b, here, succ, -, exits, -⟩ := old there
    rw [succ]
    exact laid.branches here (exits ▸ member) branches

namespace Recoded

theorem refl (runs : g.Runs) : g.Recoded g := by
  refine ⟨.refl g, ?_, runs⟩
  intro id b b' here there
  cases here.symm.trans there
  exact .refl _

theorem trans (first : g.Recoded g') (second : g'.Recoded g'') : g.Recoded g'' := by
  refine ⟨first.shape.trans second.shape, ?_, second.runs⟩
  intro id b b'' here there
  obtain ⟨code, between⟩ := first.shape.block? here
  exact (first.reworked here between).trans (second.reworked between there)

/-- Exchanging the code of a block. -/
theorem setCode {id : Nat} {b : Block} {code : List Instr} (runs : g.Runs)
    (here : g.block? id = some b) (reworked : Reworked b.code code)
    (runsCode : ∀ p ∈ code, Machine.Runs p) : g.Recoded (g.setCode id code) :=
  ⟨.setCode code, Graph.setCode_related (R := fun _ c c' => Reworked c.code c'.code) here reworked
    fun _ _ => .refl _, Graph.All.setCode runs here runsCode⟩

/-- Recoding keeps a graph wired. -/
theorem wired (recoded : g.Recoded g') (wired : g.Wired places) : g'.Wired places :=
  ⟨wired.toLaid.reworked recoded.shape recoded.reworked, recoded.runs⟩

end Recoded

/-! ## Cutting -/

variable {pins : List String} {code run : List Instr} {p : Instr}

/-- Runs are not empty, jumps stand at their ends, and pinned labels only at their starts. -/
theorem of_mem_cut (member : run ∈ cut pins code) :
    run ≠ [] ∧ JumpsLast run ∧ ∀ p ∈ run.tail, isPinned pins p = false := by
  induction code generalizing run with
  | nil => simp [cut] at member
  | cons p rest ih =>
    have alone : [p] ≠ [] ∧ JumpsLast [p] ∧ ∀ q ∈ [p].tail, isPinned pins q = false :=
      ⟨by simp, ⟨fun _ => rfl, trivial⟩, by simp⟩
    unfold cut at member
    split at member
    · rw [List.mem_singleton.1 member]
      exact alone
    · next first others isCut =>
      have later : ∀ run ∈ first :: others,
          run ≠ [] ∧ JumpsLast run ∧ ∀ q ∈ run.tail, isPinned pins q = false := fun run present =>
        ih (isCut ▸ present)
      split at member
      · rcases List.mem_cons.1 member with rfl | present
        · exact alone
        · exact later run present
      · next joins =>
        rcases List.mem_cons.1 member with rfl | present
        · obtain ⟨nonempty, last, unpinned⟩ := later first (List.mem_cons_self ..)
          simp only [Bool.or_eq_true, not_or, Bool.not_eq_true] at joins
          refine ⟨by simp, ⟨fun jumps => ?_, last⟩, fun q inside => ?_⟩
          · rw [joins.1] at jumps
            contradiction
          · obtain ⟨head, tail, rfl⟩ := List.exists_cons_of_ne_nil nonempty
            rcases List.mem_cons.1 inside with rfl | behind
            · simpa using joins.2
            · exact unpinned q behind
        · exact later run (List.mem_cons_of_mem _ present)

/-- The exits of code with its jumps at the end. -/
theorem exits_eq_terminator (last : JumpsLast code) :
    exits code = ((code.getLast?.filter Instr.isJump).bind Instr.command?).toList.map
      Command.exit := by
  induction code with
  | nil => rfl
  | cons p rest ih =>
    cases jumps : p.isJump with
    | true =>
      rw [last.1 jumps]
      obtain ⟨c, command, isJump⟩ := (Option.any_eq_true _ _).1 jumps
      simp [exits, command, Option.filter, isJump, jumps]
    | false =>
      have here : exits (p :: rest) = exits rest := by
        have single : exits [p] = [] := exits_of_plain (by simpa using jumps)
        rw [← List.singleton_append, exits_append, single, List.nil_append]
      rw [here, ih last.2]
      cases rest with
      | nil => simp [Option.filter, jumps]
      | cons q others => rw [List.getLast?_cons_cons]

/-! ## Building -/

/-- The blocks of a program before they are linked. -/
def bareBlocks (code : List Instr) : List Block :=
  unlinked (entryLabels code) (cut (pinnedLabels code) code)

/-- The place of the first block that a label leads. -/
def placeOf (code : List Instr) (label : String) : Option Nat :=
  (ledBy (bareBlocks code) label).head?

theorem getElem?_bareBlocks (id : Nat) :
    ((bareBlocks code)[id]?).map Block.code = (cut (pinnedLabels code) code)[id]? := by
  unfold bareBlocks unlinked
  rw [List.getElem?_map, List.getElem?_zipIdx, Option.map_map, Option.map_map]
  exact Option.map_id'

theorem size_build (code : List Instr) : (build code).size = (bareBlocks code).length := by
  unfold build size
  rw [link_eq, List.length_map]
  rfl

/-- A block of a built graph is one of the runs, with its edges. -/
theorem block?_build {id : Nat} {b : Block} (here : (build code).block? id = some b) :
    ∃ bare, (bareBlocks code)[id]? = some bare ∧ bare.id = id ∧ linkIn (bareBlocks code) bare = b ∧
      (cut (pinnedLabels code) code)[id]? = some b.code := by
  have linked : (link (bareBlocks code))[id]? = some b := here
  rw [link_eq, List.getElem?_map] at linked
  obtain ⟨bare, isBare, rfl⟩ := Option.map_eq_some_iff.1 linked
  refine ⟨bare, isBare, unlinked_placed _ _ id bare isBare, rfl, ?_⟩
  rw [← getElem?_bareBlocks, isBare]
  rfl

theorem mem_ledBy {id : Nat} {label : String} (led : id ∈ ledBy (bareBlocks code) label) :
    ∃ b, (build code).block? id = some b ∧ LedBy label b.code := by
  obtain ⟨bare, here, leads⟩ := getElem?_of_mem_filter (unlinked_placed _ _) led
  have isLed : bare.label? = some label := by simpa using leads
  refine ⟨linkIn (bareBlocks code) bare, ?_, isLed⟩
  have linked : (link (bareBlocks code))[id]? = some (linkIn (bareBlocks code) bare) := by
    rw [link_eq, List.getElem?_map]
    exact congrArg (Option.map _) here
  exact linked

/-- A block that a label leads is listed as one of those. -/
theorem mem_ledBy_of_leads {id : Nat} {b : Block} {label : String}
    (here : (build code).block? id = some b) (leads : LedBy label b.code) :
    id ∈ ledBy (bareBlocks code) label := by
  obtain ⟨bare, isBare, isPlace, rfl, -⟩ := block?_build here
  refine List.mem_map.2 ⟨bare, List.mem_filter.2 ⟨List.mem_of_getElem? isBare, ?_⟩, isPlace⟩
  rw [decide_eq_true_eq]
  exact leads

/-- The address of a block is taken if that of the label which leads it is. -/
theorem entry_build {id : Nat} {b : Block} (here : (build code).block? id = some b) :
    b.entry = b.label?.any (entryLabels code).contains := by
  obtain ⟨bare, isBare, -, rfl, -⟩ := block?_build here
  unfold bareBlocks unlinked at isBare
  rw [List.getElem?_map] at isBare
  obtain ⟨⟨run, place⟩, -, rfl⟩ := Option.map_eq_some_iff.1 isBare
  rfl

/-- The place of a block whose address is taken is one of the entries. -/
theorem mem_entries {id : Nat} {b : Block} (here : (build code).block? id = some b)
    (entry : b.entry = true) : id ∈ entries (bareBlocks code) := by
  obtain ⟨bare, isBare, isPlace, rfl, -⟩ := block?_build here
  exact List.mem_map.2 ⟨bare, List.mem_filter.2 ⟨List.mem_of_getElem? isBare, entry⟩, isPlace⟩

end Graph

namespace Machine

/-- The machine runs the program, its jumps go to labels that are declared once, and it ends with a
return. -/
structure Fit (code : List Instr) : Prop where
  runs : ∀ p ∈ code, Runs p
  targets : ∀ e ∈ exits code, ∀ label, e.target? = some label →
    (Graph.declared code).count label = 1
  returns : LastReturns code

theorem Fit.rework {code code' : List Instr} (fit : Fit code) (reworked : Reworked code code')
    (runs : ∀ p ∈ code', Runs p) : Fit code' := by
  refine ⟨runs, fun e member label target => ?_, reworked.lastReturns fit.returns⟩
  unfold Graph.declared
  rw [reworked.labels_eq]
  exact fit.targets e (reworked.exits_eq ▸ member) label target

/-- The jumps that the machine runs. -/
theorem Understood.jump_cases {c : Command} (understood : Understood c) (jumps : c.isJump = true) :
    (∃ op x y label, (op = .beq ∨ op = .bne) ∧ Source x ∧ Source y ∧
      c = .ofOpcode op [x, y, .sym label]) ∨
    (∃ label, c = .ofOpcode .j [.sym label]) ∨
    c.isReturn = true ∧ c.target? = none := by
  have impossible : ¬ false = true := Bool.false_ne_true
  cases understood with
  | branch op x y label isBranch left right =>
    exact Or.inl ⟨op, x, y, label, isBranch, left, right, rfl⟩
  | jump label => exact Or.inr (Or.inl ⟨label, rfl⟩)
  | ret op isJump => rcases isJump with rfl | rfl <;> exact Or.inr (Or.inr ⟨rfl, rfl⟩)
  | compute op d x y member => exact absurd ((defs_compute member).2.symm.trans jumps) impossible
  | _ => exact absurd jumps impossible

/-- A jump that the machine runs returns, or goes to a label. -/
theorem Understood.of_isJump {c : Command} (understood : Understood c) (jumps : c.isJump = true) :
    (c.isReturn = true ∧ c.target? = none) ∨
      ∃ label, c.target? = some label ∧ c.isReturn = false := by
  rcases understood.jump_cases jumps with
    ⟨op, x, y, label, isBranch, -, -, rfl⟩ | ⟨label, rfl⟩ | returns
  · rcases isBranch with rfl | rfl <;> exact Or.inr ⟨label, rfl, rfl⟩
  · exact Or.inr ⟨label, rfl, rfl⟩
  · exact Or.inl returns

end Machine

namespace Graph

section Building

variable {code : List Instr} {label : String}

/-- The exits of a part are exits of the whole. -/
theorem mem_exits_of_mem_cut {run : List Instr} {e : Exit}
    (member : run ∈ cut (pinnedLabels code) code) (exit : e ∈ exits run) : e ∈ exits code := by
  have whole := flatten_cut (pinnedLabels code) code
  obtain ⟨p, inside, isExit⟩ := List.mem_filterMap.1 exit
  refine List.mem_filterMap.2 ⟨p, ?_, isExit⟩
  rw [← whole]
  exact List.mem_flatten.2 ⟨run, member, inside⟩

/-- The target of a jump is pinned. -/
theorem mem_pinnedLabels {e : Exit} (exit : e ∈ exits code) (target : e.target? = some label) :
    label ∈ pinnedLabels code := by
  obtain ⟨p, inside, isTarget⟩ := exists_target_of_mem_exits exit target
  exact List.mem_append_left _ (List.mem_filterMap.2 ⟨p, inside, isTarget⟩)

/-- A run that declares a pinned label starts with it. -/
theorem ledBy_of_mem_cut {pins : List String} {run : List Instr} (member : run ∈ cut pins code)
    (pinned : label ∈ pins) (declares : label ∈ declared run) : LedBy label run := by
  obtain ⟨nonempty, -, unpinned⟩ := of_mem_cut member
  obtain ⟨head, tail, rfl⟩ := List.exists_cons_of_ne_nil nonempty
  obtain ⟨p, inside, isLabel⟩ := List.mem_filterMap.1 declares
  rcases List.mem_cons.1 inside with rfl | later
  · exact isLabel
  · have free := unpinned p later
    simp [isPinned, isLabel, pinned] at free

/-- A block that declares a pinned label is one of those that it leads. -/
theorem mem_ledBy_of_declares {id : Nat} {b : Block} (here : (build code).block? id = some b)
    (pinned : label ∈ pinnedLabels code) (declares : label ∈ declared b.code) :
    id ∈ ledBy (bareBlocks code) label := by
  obtain ⟨-, -, -, -, isRun⟩ := block?_build here
  exact mem_ledBy_of_leads here (ledBy_of_mem_cut (List.mem_of_getElem? isRun) pinned declares)

/-- The blocks that a label leads are listed in order. -/
theorem pairwise_ledBy (code : List Instr) (label : String) :
    (ledBy (bareBlocks code) label).Pairwise (· < ·) := by
  have ordered : ((bareBlocks code).map Block.id).Pairwise (· < ·) := by
    rw [bareBlocks, Placed.ids (unlinked_placed _ _)]
    exact List.pairwise_lt_range
  exact ordered.sublist (List.filter_sublist.map Block.id)

/-- A pinned label that is declared leads a block, and no block before it declares it. -/
theorem startsAt_build (pinned : label ∈ pinnedLabels code) (declares : label ∈ declared code) :
    ∃ place, placeOf code label = some place ∧ (build code).StartsAt label place := by
  have led : ledBy (bareBlocks code) label ≠ [] := by
    rw [← flatten_build code] at declares
    obtain ⟨p, inside, isLabel⟩ := List.mem_filterMap.1 declares
    obtain ⟨id, b, here, inBlock⟩ := exists_block_of_mem_flatten inside
    have leads := mem_ledBy_of_declares here pinned (List.mem_filterMap.2 ⟨p, inBlock, isLabel⟩)
    exact List.ne_nil_of_mem leads
  obtain ⟨place, others, places⟩ := List.exists_cons_of_ne_nil led
  have isLed : place ∈ ledBy (bareBlocks code) label := by simp [places]
  refine ⟨place, by simp [placeOf, places], mem_ledBy isLed, ?_⟩
  intro id c before there declares
  have ordered := pairwise_ledBy code label
  have listed := mem_ledBy_of_declares there pinned declares
  rw [places] at ordered listed
  rcases List.mem_cons.1 listed with rfl | later
  · omega
  · have after := (List.pairwise_cons.1 ordered).1 id later
    omega

/-- In a block of a built graph, jumps stand at the end. -/
theorem jumpsLast_build {id : Nat} {b : Block} (here : (build code).block? id = some b) :
    b.code ≠ [] ∧ JumpsLast b.code := by
  obtain ⟨-, -, -, -, isRun⟩ := block?_build here
  obtain ⟨nonempty, last, -⟩ := of_mem_cut (List.mem_of_getElem? isRun)
  exact ⟨nonempty, last⟩

/-- The edges of a block of a built graph. -/
theorem succ_build {id : Nat} {b : Block} (here : (build code).block? id = some b) :
    b.succ = (transfers (bareBlocks code) b).eraseDups ∧ b.id = id ∧
      b.unresolved = isUnresolved (bareBlocks code) b := by
  obtain ⟨bare, -, rfl, rfl, -⟩ := block?_build here
  exact ⟨rfl, rfl, rfl⟩

/-- The last block of a program that ends with a return ends with it. -/
theorem lt_size_of_terminator {id : Nat} {b : Block} {c : Command} (returns : LastReturns code)
    (here : (build code).block? id = some b)
    (terminates : b.terminator?.bind Instr.command? = some c) (stays : c.isReturn = false) :
    id + 1 < (build code).size := by
  obtain ⟨-, -, -, -, isRun⟩ := block?_build here
  have lengths : (build code).size = (cut (pinnedLabels code) code).length := by
    simp [size_build, bareBlocks, unlinked]
  rw [lengths]
  by_contra isLast
  obtain ⟨inside, -⟩ := List.getElem?_eq_some_iff.1 isRun
  have whole := flatten_cut (pinnedLabels code) code
  have split : code = ((cut (pinnedLabels code) code).take id).flatten ++ b.code := by
    conv => lhs; rw [← whole]
    conv => lhs; rw [← List.take_append_drop id (cut (pinnedLabels code) code)]
    rw [List.flatten_append]
    congr 1
    rw [List.drop_eq_getElem_cons inside, List.drop_of_length_le (by omega)]
    rw [(List.getElem?_eq_some_iff.1 isRun).2]
    simp
  obtain ⟨q, isEnd, command⟩ := Option.bind_eq_some_iff.1 terminates
  obtain ⟨front, isCode⟩ := List.getLast?_eq_some_iff.1 (Option.filter_eq_some_iff.1 isEnd).1
  obtain ⟨d, lastCommand, isReturn⟩ := returns
  rw [split, isCode, List.filterMap_append, List.filterMap_append, List.filterMap_cons_some command,
    List.filterMap_nil, ← List.append_assoc, List.getLast?_concat] at lastCommand
  cases lastCommand
  rw [stays] at isReturn
  contradiction

/-- A program that ends with a return has a block. -/
theorem size_pos_of_lastReturns (returns : LastReturns code) : 0 < (build code).size := by
  rw [Nat.pos_iff_ne_zero]
  intro empty
  have blocks : (build code).blocks = [] := List.length_eq_zero_iff.1 empty
  have none : code = [] := by
    rw [← flatten_build code, flatten, blocks]
    rfl
  obtain ⟨c, last, -⟩ := returns
  simp [none] at last

/-! A block of a built graph is left by the command of its terminator, or by none. -/

variable {id : Nat} {b : Block} {c : Command}

/-- The exit of a block is that of its terminator. -/
theorem exits_build (here : (build code).block? id = some b) :
    exits b.code = (b.terminator?.bind Instr.command?).toList.map Command.exit :=
  exits_eq_terminator (jumpsLast_build here).2

theorem mem_exits_build {e : Exit} (here : (build code).block? id = some b)
    (member : e ∈ exits b.code) :
    ∃ c, b.terminator?.bind Instr.command? = some c ∧ e = c.exit := by
  rw [exits_build here] at member
  obtain ⟨c, isEnd, rfl⟩ := List.mem_map.1 member
  exact ⟨c, Option.mem_toList.1 isEnd, rfl⟩

/-- A terminator is an exit of the program. -/
theorem exit_mem_of_terminates (here : (build code).block? id = some b)
    (terminates : b.terminator?.bind Instr.command? = some c) : c.exit ∈ exits code := by
  obtain ⟨-, -, -, -, isRun⟩ := block?_build here
  refine mem_exits_of_mem_cut (List.mem_of_getElem? isRun) ?_
  rw [exits_build here, terminates]
  exact List.mem_singleton_self _

/-- A terminator returns, or goes to a label, in a program whose jumps the machine runs. -/
theorem of_terminates
    (runs : ∀ p ∈ code, ∀ c, p.command? = some c → c.isJump = true → Machine.Understood c)
    (here : (build code).block? id = some b)
    (terminates : b.terminator?.bind Instr.command? = some c) :
    (c.isReturn = true ∧ c.target? = none) ∨
      ∃ label, c.target? = some label ∧ c.isReturn = false := by
  obtain ⟨q, isEnd, command⟩ := Option.bind_eq_some_iff.1 terminates
  obtain ⟨isLast, jumps⟩ := Option.filter_eq_some_iff.1 isEnd
  have isJump : c.isJump = true := by
    rwa [← Instr.isJump_of_command command]
  have member := mem_of_mem_build here (List.mem_of_getLast? isLast)
  exact (runs q member c command isJump).of_isJump isJump

theorem nextPlace_build (id : Nat) :
    nextPlace (bareBlocks code) id = if id + 1 < (build code).size then [id + 1] else [] := by
  rw [nextPlace, size_build]

/-- Where there is no jump, the only edge is to the next block. -/
theorem succ_of_falls (here : (build code).block? id = some b)
    (falls : b.terminator?.bind Instr.command? = none) :
    b.succ = if id + 1 < (build code).size then [id + 1] else [] := by
  obtain ⟨succ, place, -⟩ := succ_build here
  rw [succ, transfers_of_plain falls, place, nextPlace_build]
  split <;> rfl

theorem succ_of_returns (here : (build code).block? id = some b)
    (terminates : b.terminator?.bind Instr.command? = some c) (returns : c.isReturn = true) :
    b.succ = [] := by
  rw [(succ_build here).1, transfers_of_return terminates returns]
  rfl

/-- There is an edge to the block that the target of a jump leads. -/
theorem mem_succ_of_target {place : Nat} (here : (build code).block? id = some b)
    (terminates : b.terminator?.bind Instr.command? = some c) (target : c.target? = some label)
    (stays : c.isReturn = false) (isPlace : placeOf code label = some place) : place ∈ b.succ := by
  rw [(succ_build here).1, List.mem_eraseDups, transfers_of_jump terminates stays]
  refine List.mem_append_left _ ?_
  rw [jumpTargets, target]
  exact List.mem_of_mem_head? isPlace

/-- There is an edge to the next block behind a jump that may go on. -/
theorem next_mem_succ (here : (build code).block? id = some b)
    (terminates : b.terminator?.bind Instr.command? = some c) (stays : c.isReturn = false)
    (goesOn : (c.isBranch || c.isCall) = true) (inside : id + 1 < (build code).size) :
    id + 1 ∈ b.succ := by
  obtain ⟨succ, place, -⟩ := succ_build here
  rw [succ, List.mem_eraseDups, transfers_of_jump terminates stays, place, nextPlace_build,
    if_pos goesOn, if_pos inside]
  exact List.mem_append_right _ (List.mem_singleton_self _)

/-- The graph of a program is laid out like its jumps, if the machine runs them, they go to labels
that are declared once, and the last command returns. -/
theorem build_laid
    (runs : ∀ p ∈ code, ∀ c, p.command? = some c → c.isJump = true → Machine.Understood c)
    (targets : ∀ e ∈ exits code, ∀ label, e.target? = some label → (declared code).count label = 1)
    (lastReturns : LastReturns code) : (build code).Laid (placeOf code) := by
  have jumps : ∀ {id : Nat} {b : Block} {c : Command} {label : String},
      (build code).block? id = some b → b.terminator?.bind Instr.command? = some c →
      c.target? = some label → ∃ place, placeOf code label = some place ∧ place ∈ b.succ ∧
        (build code).StartsAt label place := by
    intro id b c label here terminates target
    have exit := exit_mem_of_terminates here terminates
    have declares : label ∈ declared code := by
      rw [← List.count_pos_iff, targets c.exit exit label target]
      exact Nat.one_pos
    obtain ⟨place, isPlace, starts⟩ := startsAt_build (mem_pinnedLabels exit target) declares
    refine ⟨place, isPlace, ?_, starts⟩
    rcases of_terminates runs here terminates with ⟨-, none⟩ | ⟨-, -, stays⟩
    · rw [none] at target
      contradiction
    · exact mem_succ_of_target here terminates target stays isPlace
  refine ⟨build_regular code, ?_, fun here => (jumpsLast_build here).2, ?_, ?_, ?_, ?_⟩
  · intro id b here
    rw [(succ_build here).2.2]
    unfold isUnresolved
    cases terminates : b.terminator?.bind Instr.command? with
    | none => rfl
    | some c =>
      rcases of_terminates runs here terminates with ⟨returns, -⟩ | ⟨label, target, -⟩
      · simp [returns]
      · obtain ⟨place, isPlace, -⟩ := jumps here terminates target
        have led : ledBy (bareBlocks code) label ≠ [] := by
          intro none
          simp [placeOf, none] at isPlace
        simp [target, led]
  · intro id b here falls
    rw [exits_build here, List.map_eq_nil_iff, Option.toList_eq_nil_iff] at falls
    exact succ_of_falls here falls
  · intro id b e here member returns
    obtain ⟨c, terminates, rfl⟩ := mem_exits_build here member
    exact succ_of_returns here terminates returns
  · intro id b e label here member target
    obtain ⟨c, terminates, rfl⟩ := mem_exits_build here member
    exact jumps here terminates target
  · intro id b e here member branches
    obtain ⟨c, terminates, rfl⟩ := mem_exits_build here member
    have isOp : c.op? = some .beq ∨ c.op? = some .bne := branches
    have isBranch : (c.isBranch || c.isCall) = true ∧ c.isReturn = false := by
      rcases isOp with isOp | isOp <;>
        simp [Command.isBranch, Command.has, Command.isReturn, isOp, Opcode.has, Opcode.traits]
    exact next_mem_succ here terminates isBranch.2 isBranch.1
      (lt_size_of_terminator lastReturns here terminates isBranch.2)

/-- The graph of a program that the machine runs is wired. -/
theorem build_wired (fit : Machine.Fit code) : (build code).Wired (placeOf code) :=
  ⟨build_laid (fun p member c command _ => fit.runs p member c command) fit.targets fit.returns,
    fun here p member => fit.runs p (mem_of_mem_build here member)⟩

end Building

end Graph

end MipsFlow
