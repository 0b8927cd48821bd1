import Mathlib.Data.List.Chain
import MipsFlow.Proofs.Wiring

/-!
# Basic blocks are a partition, and the coarsest one

A *partition* of a program cuts it into runs that are entered at their starts and left at their ends
only: nothing that sends control elsewhere stands before the end of a run, and no label that control
may come to stands behind the start of one. The blocks of a graph are a partition, and every other
partition starts a run wherever they start one: `build_partition`.

The argument is about positions. Two instructions that follow each other are in one run or a run
starts between them (`start_or_inside`), so every partition has to start a run behind a jump and at
a pinned label (`IsPartition.mem_starts`). Cutting starts no other: from each run to the next there
is such a reason (`isChain_cut`).
-/

namespace MipsFlow

/-- The command may send control elsewhere than to the next one: it is a jump, a branch, a call or a
return. -/
def Command.redirects (c : Command) : Bool := c.isJump || c.isBranch || c.isCall || c.isReturn

/-- Branches, calls and returns are jumps. -/
theorem Command.redirects_eq_isJump (c : Command) : c.redirects = c.isJump := by
  cases jumps : c.isJump with
  | true => simp [redirects, jumps]
  | false =>
    have noBranch : c.isBranch = false := Bool.eq_false_iff.2 fun branches => by
      simp [(isJump_of_isBranch branches).1] at jumps
    have noCall : c.isCall = false := Bool.eq_false_iff.2 fun calls => by
      simp [isJump_of_isCall calls] at jumps
    have noReturn : c.isReturn = false := Bool.eq_false_iff.2 fun returns => by
      simp [isJump_of_isReturn returns] at jumps
    simp [redirects, jumps, noBranch, noCall, noReturn]

/-- The instruction is a command that may send control elsewhere. -/
def Instr.redirects (p : Instr) : Bool := p.isCommandWith Command.redirects

theorem Instr.redirects_eq_isJump (p : Instr) : p.redirects = p.isJump := by
  have same : Command.redirects = Command.isJump := funext Command.redirects_eq_isJump
  rw [redirects, isJump, same]

namespace Graph

/-- The name is one that control may come to in another way than from the instruction before it. -/
def IsGoal (code : List Instr) (name : String) : Prop :=
  (∃ p ∈ code, p.target? = some name) ∨ name ∈ pinnedLabels code

/-- The runs cut a program into pieces that are entered at their starts and left at their ends. -/
structure IsPartition (code : List Instr) (runs : List (List Instr)) : Prop where
  whole : runs.flatten = code
  nonempty : ∀ run ∈ runs, run ≠ []
  leftLast : ∀ run ∈ runs, ∀ before p after, run = before ++ p :: after → p.redirects = true →
    after = []
  enteredFirst : ∀ run ∈ runs, ∀ before p after name, run = before ++ p :: after →
    p.label? = some name → IsGoal code name → before = []

/-- There is a reason to start a run at the position: it is the first one, or there is a jump before
it or a pinned label at it. -/
def Leads (code : List Instr) (n : Nat) : Prop :=
  n = 0 ∨ (∃ p, code[n - 1]? = some p ∧ p.isJump = true) ∨
    ∃ p, code[n]? = some p ∧ isPinned (pinnedLabels code) p = true

variable {code run : List Instr} {runs : List (List Instr)} {p : Instr} {n k : Nat} {name : String}

theorem isGoal_iff : IsGoal code name ↔ name ∈ pinnedLabels code := by
  refine ⟨?_, Or.inr⟩
  rintro (⟨p, inside, target⟩ | pinned)
  · exact List.mem_append_left _ (List.mem_filterMap.2 ⟨p, inside, target⟩)
  · exact pinned

theorem isPinned_iff {pins : List String} :
    isPinned pins p = true ↔ ∃ name, p.label? = some name ∧ name ∈ pins := by
  simp [isPinned, Option.any_eq_true]

/-! ## Positions -/

/-- The starts of the runs, counted from the first of them. -/
theorem mem_starts_cons :
    n ∈ starts k (run :: runs) ↔ n = k ∨ n ∈ starts (k + run.length) runs := by
  simp [starts]

/-- A position is a start if the runs before it fill what is before it. -/
theorem mem_starts_iff : n ∈ starts k runs ↔
    ∃ front run back, runs = front ++ run :: back ∧ n = k + front.flatten.length := by
  induction runs generalizing k with
  | nil => simp [starts]
  | cons run runs ih =>
    rw [mem_starts_cons, ih]
    constructor
    · rintro (rfl | ⟨front, first, back, rfl, rfl⟩)
      · exact ⟨[], run, runs, rfl, by simp⟩
      · exact ⟨run :: front, first, back, rfl, by simp [Nat.add_assoc]⟩
    · rintro ⟨_ | ⟨head, front⟩, first, back, split, rfl⟩
      · exact Or.inl (by simp)
      · obtain ⟨rfl, rest⟩ := List.cons.inj split
        exact Or.inr ⟨front, first, back, rest, by simp [Nat.add_assoc]⟩

/-- A run starts at a position inside the program, or the instruction there and the one before it
stand in one run. -/
theorem start_or_inside (inside : n < runs.flatten.length) : n ∈ starts 0 runs ∨
    ∃ run ∈ runs, ∃ before p q after, run = before ++ p :: q :: after ∧
      runs.flatten[n - 1]? = some p ∧ runs.flatten[n]? = some q := by
  obtain ⟨front, run, back, rfl, i, isInside, rfl⟩ :
      ∃ front run back, runs = front ++ run :: back ∧ ∃ i < run.length,
        n = front.flatten.length + i := by
    induction runs generalizing n with
    | nil => simp at inside
    | cons run runs ih =>
      rcases Nat.lt_or_ge n run.length with here | behind
      · exact ⟨[], run, runs, rfl, n, here, by simp⟩
      · obtain ⟨front, next, back, rfl, i, isInside, place⟩ :=
          ih (n := n - run.length) (by rw [List.flatten_cons, List.length_append] at inside; omega)
        refine ⟨run :: front, next, back, rfl, i, isInside, ?_⟩
        rw [List.flatten_cons, List.length_append]
        omega
  cases i with
  | zero => exact Or.inl (mem_starts_iff.2 ⟨front, run, back, rfl, by simp⟩)
  | succ i =>
    have atFlat : ∀ j < run.length,
        (front ++ run :: back).flatten[front.flatten.length + j]? = run[j]? := by
      intro j below
      rw [List.flatten_append, List.flatten_cons, List.getElem?_append_right (by omega),
        Nat.add_sub_cancel_left, List.getElem?_append_left below]
    refine Or.inr ⟨run, by simp, run.take i, run[i], run[i + 1], run.drop (i + 2), ?_, ?_, ?_⟩
    · rw [← List.drop_eq_getElem_cons isInside, ← List.drop_eq_getElem_cons (by omega),
        List.take_append_drop]
    · rw [← Nat.add_assoc, Nat.add_sub_cancel, atFlat i (by omega)]
      exact List.getElem?_eq_getElem _
    · rw [atFlat (i + 1) isInside]
      exact List.getElem?_eq_getElem _

/-- Every partition starts a run wherever there is a reason to. -/
theorem IsPartition.mem_starts (partition : IsPartition code runs) (inside : n < code.length)
    (leads : Leads code n) : n ∈ starts 0 runs := by
  obtain ⟨rfl, nonempty, leftLast, enteredFirst⟩ := partition
  rcases start_or_inside inside with
    start | ⟨run, isRun, before, p, q, after, split, isBefore, here⟩
  · exact start
  have splitBefore : run = (before ++ [p]) ++ q :: after := by simp [split]
  rcases leads with rfl | ⟨p', isBefore', jumps⟩ | ⟨q', here', pinned⟩
  · -- the first position is the start of the first run
    obtain ⟨first, rest, isCons⟩ := List.exists_cons_of_ne_nil (List.ne_nil_of_mem isRun)
    exact mem_starts_iff.2 ⟨[], first, rest, isCons, by simp⟩
  · obtain rfl := Option.some.inj (isBefore.symm.trans isBefore')
    have last := leftLast run isRun before p (q :: after) split (p.redirects_eq_isJump ▸ jumps)
    simp at last
  · obtain rfl := Option.some.inj (here.symm.trans here')
    obtain ⟨name, label, member⟩ := isPinned_iff.1 pinned
    have first :=
      enteredFirst run isRun (before ++ [p]) q after name splitBefore label (Or.inr member)
    simp at first

/-! ## Cutting -/

/-- The one run ends with a jump, or the next one starts with a pinned label. -/
def Parts (pins : List String) (run next : List Instr) : Prop :=
  (∃ p, run.getLast? = some p ∧ p.isJump = true) ∨ ∃ p, next.head? = some p ∧ isPinned pins p = true

/-- Cutting starts no run without a reason. -/
theorem isChain_cut (pins : List String) (code : List Instr) :
    (cut pins code).IsChain (Parts pins) := by
  induction code with
  | nil => exact .nil
  | cons p rest ih =>
    unfold cut
    split
    · exact .singleton _
    · next run runs isCut =>
      rw [isCut] at ih
      split
      · next parts =>
        refine List.isChain_cons_cons.2 ⟨?_, ih⟩
        rw [Bool.or_eq_true, Option.any_eq_true] at parts
        exact parts.imp (fun jumps => ⟨p, rfl, jumps⟩) id
      · have nonempty : run ≠ [] := by
          have member : run ∈ cut pins rest := by simp [isCut]
          exact (of_mem_cut member).1
        have sameLast : (p :: run).getLast? = run.getLast? := by
          obtain ⟨head, tail, rfl⟩ := List.exists_cons_of_ne_nil nonempty
          exact List.getLast?_cons_cons
        cases runs with
        | nil => exact .singleton _
        | cons next runs =>
          obtain ⟨parts, behind⟩ := List.isChain_cons_cons.1 ih
          refine List.isChain_cons_cons.2 ⟨?_, behind⟩
          unfold Parts at parts ⊢
          rwa [sameLast]

theorem leads_of_mem_cut (start : n ∈ starts 0 (cut (pinnedLabels code) code)) : Leads code n := by
  obtain ⟨front, next, back, split, rfl⟩ := mem_starts_iff.1 start
  have whole := flatten_cut (pinnedLabels code) code
  have chain := isChain_cut (pinnedLabels code) code
  have nonempty : ∀ run ∈ cut (pinnedLabels code) code, run ≠ [] :=
    fun run member => (of_mem_cut member).1
  rw [split] at whole chain nonempty
  rcases List.eq_nil_or_concat front with rfl | ⟨front, last, rfl⟩
  · exact Or.inl (by simp)
  obtain ⟨l, isLast⟩ := Option.ne_none_iff_exists'.1
    (mt List.getLast?_eq_none_iff.1 (nonempty last (by simp)))
  obtain ⟨h, isHead⟩ := Option.ne_none_iff_exists'.1
    (mt List.head?_eq_none_iff.1 (nonempty next (by simp)))
  have parts : Parts (pinnedLabels code) last next := by
    rw [List.concat_eq_append, List.append_assoc] at chain
    exact (List.isChain_append_cons_cons.1 chain).2.1
  obtain ⟨init, rfl⟩ := List.getLast?_eq_some_iff.1 isLast
  obtain ⟨tail, rfl⟩ := List.head?_eq_some_iff.1 isHead
  refine Or.inr (parts.imp ?_ ?_)
  · rintro ⟨p, isLast, jumps⟩
    refine ⟨p, ?_, jumps⟩
    rw [← whole, ← isLast]
    simp
  · rintro ⟨p, isHead, pinned⟩
    refine ⟨p, ?_, pinned⟩
    rw [← whole, ← isHead]
    simp

theorem isPartition_cut (code : List Instr) : IsPartition code (cut (pinnedLabels code) code) := by
  refine ⟨flatten_cut _ code, fun run member => (of_mem_cut member).1, ?_, ?_⟩
  · rintro _ member before p after rfl redirects
    have last := (of_mem_cut member).2.1
    rw [Instr.redirects_eq_isJump] at redirects
    exact last.eq_nil redirects
  · rintro _ member before p after name rfl label goal
    obtain ⟨-, -, unpinned⟩ := of_mem_cut member
    cases before with
    | nil => rfl
    | cons q before =>
      have free := unpinned p (by simp)
      rw [isPinned_iff.2 ⟨name, label, isGoal_iff.1 goal⟩] at free
      contradiction

/-! ## Blocks -/

/-- Building a graph loses nothing and gives basic blocks. They are numbered in order, they hold the
instructions in order, none is empty, jumps, branches, calls and returns stand at the ends of blocks
only, and labels that jumps go to or that are pinned stand at their starts only. A block starts at
the first instruction, behind every jump and at every pinned label, and nowhere else, so that every
other partition with these properties starts a run wherever a block starts. -/
theorem build_partition (code : List Instr) :
    let blocks := (build code).blocks
    blocks.map Block.id = List.range blocks.length ∧ (build code).flatten = code ∧
    IsPartition code (blocks.map Block.code) ∧
    (∀ n, n ∈ starts 0 (blocks.map Block.code) ↔ n < code.length ∧ Leads code n) ∧
    ∀ runs, IsPartition code runs →
      ∀ n ∈ starts 0 (blocks.map Block.code), n ∈ starts 0 runs := by
  intro blocks
  have runsOf : blocks.map Block.code = cut (pinnedLabels code) code := code_build code
  have partition := isPartition_cut code
  have inside : ∀ n ∈ starts 0 (cut (pinnedLabels code) code), n < code.length := by
    intro n start
    obtain ⟨front, run, back, split, rfl⟩ := mem_starts_iff.1 start
    have some : 0 < run.length :=
      List.length_pos_iff.2 (partition.nonempty run (by simp [split]))
    rw [← partition.whole, split]
    simp
    omega
  rw [runsOf]
  refine ⟨Placed.ids fun id b => (build_regular code).place, flatten_build code, partition,
    fun n => ⟨fun start => ?_, fun ⟨below, leads⟩ => partition.mem_starts below leads⟩, ?_⟩
  · exact ⟨inside n start, leads_of_mem_cut start⟩
  · exact fun runs other n start => other.mem_starts (inside n start) (leads_of_mem_cut start)

/-- Of two labels before one instruction only the second one is a goal, and there are two of its
name: blocks start at both, and so do runs of one instruction each, which are a finer partition. -/
theorem build_partition_stacked :
    let code : List Instr := [⟨1, .label "L", "", []⟩, ⟨2, .label "M", "", []⟩,
      .ofCommand 3 (.ofOpcode .bne [.reg (.general 8), .reg Reg.zero, .sym "M"]),
      ⟨4, .label "K", "", []⟩, ⟨5, .label "M", "", []⟩,
      .ofCommand 6 (.ofOpcode .jr [.reg Reg.link])]
    let blockStarts := starts 0 ((build code).blocks.map Block.code)
    blockStarts = [0, 1, 3, 4] ∧ IsPartition code (code.map ([·])) ∧
      ∀ n ∈ blockStarts, n ∈ starts 0 (code.map ([·])) := by
  intro code blockStarts
  have single : IsPartition code (code.map ([·])) := by
    have only {run before after : List Instr} {p : Instr} (member : run ∈ code.map ([·]))
        (split : run = before ++ p :: after) : before = [] ∧ after = [] := by
      obtain ⟨q, -, rfl⟩ := List.mem_map.1 member
      have length := congrArg List.length split
      simp only [List.length_append, List.length_cons, List.length_nil] at length
      exact ⟨List.eq_nil_of_length_eq_zero (by omega), List.eq_nil_of_length_eq_zero (by omega)⟩
    exact ⟨rfl, by simp, fun _ member _ _ _ split _ => (only member split).2,
      fun _ member _ _ _ _ split _ _ => (only member split).1⟩
  exact ⟨by decide +kernel, single, (build_partition code).2.2.2.2 _ single⟩

end Graph

end MipsFlow
