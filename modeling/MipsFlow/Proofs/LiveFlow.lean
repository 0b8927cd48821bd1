import MipsFlow.Optimizer.View
import MipsFlow.Proofs.CopyFlow
import MipsFlow.Proofs.Execution

/-!
# What live registers mean

Two states *agree* on a set of registers if these have the same values, and memory is the same.

* `agree_execAll`: states that agree on what is live before some code still agree on what is live
  behind it, and the code decides the same from both.
* `LiveSound`: what the facts about live registers promise of a graph. Fresh facts keep the promise
  (`analyze_liveSound`).
-/

namespace MipsFlow

variable {V M : Type}

/-- The two states have the same memory, and the same values in the registers of the set. -/
def AgreeOn (I : Interpretation V M) (live : FactSet Reg) (s t : MachineState V M) : Prop :=
  s.mem = t.mem ∧ ∀ r ∈ live, I.read s r = I.read t r

/-- The instruction is not a foreign command. -/
def Instr.isKnown (p : Instr) : Bool := p.command?.all fun c => !c.isForeign

namespace AgreeOn

variable {I : Interpretation V M} {live live' : FactSet Reg} {s t u : MachineState V M}

theorem refl (live : FactSet Reg) (s : MachineState V M) : AgreeOn I live s s :=
  ⟨rfl, fun _ _ => rfl⟩

theorem trans (first : AgreeOn I live s t) (second : AgreeOn I live t u) : AgreeOn I live s u :=
  ⟨first.1.trans second.1, fun r member => (first.2 r member).trans (second.2 r member)⟩

theorem mono (agree : AgreeOn I live s t) (fewer : ∀ r ∈ live', r ∈ live) : AgreeOn I live' s t :=
  ⟨agree.1, fun r member => agree.2 r (fewer r member)⟩

end AgreeOn

/-! ## Following one command -/

namespace Interpretation

variable (I : Interpretation V M) {c : Command} {form : Form} {s t : MachineState V M} {r : Reg}

/-- With the same inputs a command leaves the same in what it may write, and what was the same
elsewhere stays so. -/
theorem read_exec_congr (known : c.form? = some form) (same : I.inputs c s = I.inputs c t)
    (agree : r ∈ c.clobbers ∨ I.read s r = I.read t r) :
    I.read (I.exec c s) r = I.read (I.exec c t) r := by
  cases zero : r.isZero with
  | true => rw [I.read_zero zero, I.read_zero zero]
  | false =>
    rw [I.read_eq_regs zero, I.read_eq_regs zero]
    simp only [exec, known, zero, Bool.false_eq_true, if_false, written, same]
    split
    · rfl
    · split
      · rfl
      · next kept =>
        have untouched := agree.resolve_left kept
        rwa [I.read_eq_regs zero, I.read_eq_regs zero] at untouched

theorem mem_exec_congr (known : c.form? = some form) (same : I.inputs c s = I.inputs c t)
    (mem : s.mem = t.mem) : (I.exec c s).mem = (I.exec c t).mem := by
  simp only [exec, known, same, mem]

end Interpretation

namespace Liveness

variable {I : Interpretation V M} {reserved out : FactSet Reg} {unresolved : Bool}
variable {p : Instr} {rest code : List Instr} {r : Reg}

/-! ## Live registers in code -/

@[simp] theorem usesBefore_false : usesBefore false p rest = p.uses := rfl

theorem usesBefore_of_stays (stays : p.isJump = false) : usesBefore unresolved p rest = p.uses := by
  simp [usesBefore, stays]

/-- Of what is behind an instruction it matters only whether there is any. -/
theorem usesBefore_of_length {rest' : List Instr} (lengths : rest'.length = rest.length) :
    usesBefore unresolved p rest' = usesBefore unresolved p rest := by
  have ends : rest'.isEmpty = rest.isEmpty := by
    rw [Bool.eq_iff_iff, List.isEmpty_iff, List.isEmpty_iff, ← List.length_eq_zero_iff, lengths,
      List.length_eq_zero_iff]
  rw [usesBefore, ends]
  rfl

theorem mem_usesBefore : r ∈ usesBefore unresolved p rest ↔
    r ∈ p.uses ∨ (unresolved = true ∧ rest = [] ∧ p.isJump = true) ∧ r ∈ forced := by
  unfold usesBefore
  split
  · next ends =>
    simp only [Bool.and_eq_true, List.isEmpty_iff, and_assoc] at ends
    simp only [List.mem_append, List.mem_filter, Instr.reads, Bool.not_eq_true',
      Bool.eq_false_iff, ne_eq, List.contains_iff_mem, ends, true_and]
    grind
  · next goesOn =>
    simp only [Bool.and_eq_true, List.isEmpty_iff, and_assoc] at goesOn
    exact (or_iff_left fun ends => goesOn ends.1).symm

theorem mem_usesBefore_of_mem_uses (read : r ∈ p.uses) : r ∈ usesBefore unresolved p rest :=
  mem_usesBefore.2 (Or.inl read)

theorem mem_liveIn_cons : r ∈ liveIn reserved unresolved out (p :: rest) ↔
    r ∈ usesBefore unresolved p rest ∨
      r ∈ liveIn reserved unresolved out rest ∧ (r ∈ reserved ∨ r ∉ p.defs) := by
  rw [liveIn, FactSet.mem_insertAll, FactSet.mem_filter]
  simp [Instr.writes]

/-- In code that ends in no unknown destination, what is live before a first part is what is live
before it given what is live before the second. -/
theorem liveIn_append (first second : List Instr) : liveIn reserved false out (first ++ second) =
    liveIn reserved false (liveIn reserved false out second) first := by
  induction first with
  | nil => rfl
  | cons p rest ih =>
    rw [List.cons_append, liveIn, liveIn, ih]
    rfl

theorem liveIn_mono {out' : FactSet Reg} (fewer : ∀ r ∈ out', r ∈ out)
    (member : r ∈ liveIn reserved unresolved out' code) :
    r ∈ liveIn reserved unresolved out code := by
  induction code with
  | nil => exact fewer r member
  | cons p rest ih =>
    rw [mem_liveIn_cons] at member ⊢
    exact member.imp_right (And.imp_left ih)

/-- A reserved register that is live behind some code is live before it. -/
theorem mem_liveIn_of_fixed (fixed : r ∈ reserved) (behind : r ∈ out) :
    r ∈ liveIn reserved unresolved out code := by
  induction code with
  | nil => exact behind
  | cons p rest ih => exact mem_liveIn_cons.2 (Or.inr ⟨ih, Or.inl fixed⟩)

/-- A register that is not reserved is live before some code if it is not dead there. -/
theorem deadIn_eq_false_iff (free : r ∉ reserved) :
    deadIn unresolved out r code = false ↔ r ∈ liveIn reserved unresolved out code := by
  induction code with
  | nil => simp [deadIn, liveIn]
  | cons p rest ih =>
    rw [mem_liveIn_cons, ← ih]
    simp only [deadIn, Instr.writes, Bool.and_eq_false_iff, Bool.not_eq_false',
      Bool.or_eq_false_iff, List.contains_iff_mem, free, false_or]
    rw [← Bool.not_eq_true (p.defs.contains r), List.contains_iff_mem, and_comm]

theorem not_mem_liveIn_of_dead {v : View} (dead : v.dead code r = true) :
    r ∉ v.reserved ∧ r ∉ liveIn v.reserved v.unresolved v.liveOut code := by
  simp only [View.dead, Bool.and_eq_true, Bool.not_eq_true', Bool.eq_false_iff, ne_eq,
    FactSet.contains_iff] at dead
  refine ⟨dead.1, fun live => ?_⟩
  rw [← deadIn_eq_false_iff dead.1, dead.2] at live
  contradiction

/-- A command has the same inputs in states that agree on what is live before it. -/
theorem inputs_of_agree {s t : MachineState V M} {c : Command} (command : p.command? = some c)
    (agree : AgreeOn I (liveIn reserved unresolved out (p :: rest)) s t) :
    I.inputs c s = I.inputs c t := by
  refine I.inputs_congr (fun r read => ?_) agree.1
  refine agree.2 r (mem_liveIn_cons.2 (Or.inl (mem_usesBefore_of_mem_uses ?_)))
  simpa [Instr.uses, command] using read

/-- States that agree on what is live before an instruction agree behind it on what is live there,
and it takes the same decision in both. -/
theorem agree_execInstr {s t : MachineState V M} (known : p.isKnown = true)
    (agree : AgreeOn I (liveIn reserved unresolved out (p :: rest)) s t) :
    AgreeOn I (liveIn reserved unresolved out rest) (I.execInstr p s) (I.execInstr p t) ∧
      ∀ here, I.decideInstr here p s = I.decideInstr here p t := by
  unfold Interpretation.execInstr Interpretation.decideInstr
  cases command : p.command? with
  | none =>
    have undefined : p.defs = [] := by simp [Instr.defs, command]
    refine ⟨agree.mono fun r member => ?_, fun _ => rfl⟩
    rw [mem_liveIn_cons, undefined]
    exact Or.inr ⟨member, Or.inr List.not_mem_nil⟩
  | some c =>
    obtain ⟨form, isForm⟩ : ∃ form, c.form? = some form := by
      rw [← Command.isForeign_eq_false]
      simpa [Instr.isKnown, command] using known
    have same : I.inputs c s = I.inputs c t := inputs_of_agree command agree
    refine ⟨⟨I.mem_exec_congr isForm same agree.1, fun r member => ?_⟩, fun here => ?_⟩
    · refine I.read_exec_congr isForm same ?_
      by_cases written : r ∈ c.defs
      · exact Or.inl (Command.mem_clobbers_of_mem_defs written)
      · refine Or.inr (agree.2 r (mem_liveIn_cons.2 (Or.inr ⟨member, Or.inr ?_⟩)))
        simpa [Instr.defs, command] using written
    · rw [Option.filter_some]
      split
      · simp only [Option.map_some, Interpretation.decide, isForm, same]
      · rfl

/-- States that agree on what is live before some code agree behind it on what is live there, and
the code takes the same decision from both. -/
theorem agree_execAll {s t : MachineState V M} (known : ∀ p ∈ code, p.isKnown = true)
    (agree : AgreeOn I (liveIn reserved unresolved out code) s t) :
    AgreeOn I out (I.execAll code s) (I.execAll code t) ∧
      ∀ here, I.leave here code s = I.leave here code t := by
  induction code generalizing s t with
  | nil => exact ⟨agree, fun _ => rfl⟩
  | cons p rest ih =>
    obtain ⟨agreeRest, decides⟩ := agree_execInstr (known p (List.mem_cons_self ..)) agree
    obtain ⟨ends, leaves⟩ := ih (fun q member => known q (List.mem_cons_of_mem _ member)) agreeRest
    refine ⟨ends, fun here => ?_⟩
    rw [Interpretation.leave_cons, Interpretation.leave_cons, leaves, decides]

/-! ## The promise of the facts -/

theorem mem_useDef_of_mem (code : List Instr) {use defined : FactSet Reg} (member : r ∈ use) :
    r ∈ (useDef unresolved use defined code).1 := by
  induction code generalizing use defined with
  | nil => exact member
  | cons p rest ih => exact ih (FactSet.mem_insertAll.2 (Or.inr member))

/-- What is live before some code is read in it before it is written, or live behind it and not
written at all. -/
theorem mem_useDef_of_mem_liveIn (use : FactSet Reg) {defined : FactSet Reg} (free : r ∉ reserved)
    (live : r ∈ liveIn reserved unresolved out code) (undefined : r ∉ defined) :
    r ∈ (useDef unresolved use defined code).1 ∨
      r ∈ out ∧ r ∉ (useDef unresolved use defined code).2 := by
  induction code generalizing use defined with
  | nil => exact Or.inr ⟨live, undefined⟩
  | cons p rest ih =>
    rcases mem_liveIn_cons.1 live with read | ⟨later, kept⟩
    · refine Or.inl (mem_useDef_of_mem rest (FactSet.mem_insertAll.2 (Or.inl ?_)))
      rw [List.mem_filter]
      exact ⟨read, by simpa [Bool.eq_false_iff] using undefined⟩
    · refine ih _ later ?_
      rw [FactSet.mem_insertAll, not_or]
      exact ⟨kept.resolve_left free, undefined⟩

end Liveness

/-- What the facts about live registers promise of a graph: at the exit of a block everything is
live that is live at the entry of a successor, or where the program ends if there is none, and at
the entry everything that the code makes live. -/
structure Facts.LiveSound (f : Facts) (g : Graph) (reserved : List Reg) : Prop where
  edge : ∀ {id next : Nat} {b : Block} {r : Reg}, g.block? id = some b → next ∈ b.succ →
    r ∈ f.live.entryOf next → r ∈ f.live.exitOf id
  ends : ∀ {id : Nat} {b : Block} {r : Reg}, g.block? id = some b → b.succ = [] →
    r ∈ Liveness.atExit reserved → r ∈ f.live.exitOf id
  block : ∀ {id : Nat} {b : Block} {r : Reg}, g.block? id = some b →
    r ∈ Liveness.liveIn f.reserved b.unresolved (f.live.exitOf id) b.code →
    r ∈ f.live.entryOf id

section Analysis

variable {g : Graph} {reserved : List Reg} {id : Nat} {b : Block}

/-- What a block of the graph reads first, and what is reserved. -/
theorem gen_live (here : g.block? id = some b) :
    Problem.factsAt (Liveness.problem g reserved).gen id =
      (Liveness.useDef b.unresolved (.ofList reserved) .empty b.code).1 := by
  simp only [Liveness.problem, List.map_map, factsAt_map_blocks here]
  rfl

/-- What a block of the graph writes that is not reserved. -/
theorem kill_live (here : g.block? id = some b) :
    Problem.factsAt (Liveness.problem g reserved).kill id =
      (Liveness.useDef b.unresolved (.ofList reserved) .empty b.code).2.diff
        (.ofList reserved) := by
  simp only [Liveness.problem, List.map_map, factsAt_map_blocks here]
  rfl

end Analysis

/-- Fresh facts keep their promise. -/
theorem analyze_liveSound {g : Graph} {reserved : List Reg} (regular : g.Regular) :
    (Facts.analyze g reserved).LiveSound g reserved := by
  let p := Liveness.problem g reserved
  let w := p.settle g (p.fuel g) (p.initial g)
  have union : p.meet = .union := rfl
  have settled : ∀ {id b}, g.block? id = some b → p.Settled w id b :=
    fun here => Problem.solution_settled regular here
  refine ⟨?_, ?_, ?_⟩
  · intro id next b r here edge live
    refine ((settled here).1 r).2 ((Problem.mem_inflow_union union).2 (Or.inr ?_))
    exact ⟨next, edge, live⟩
  · intro id b r here none live
    refine ((settled here).1 r).2 ((Problem.mem_inflow_union union).2 (Or.inl ⟨?_, live⟩))
    simp [p, Problem.atBoundary, Liveness.problem, none]
  · intro id b r here live
    refine ((settled here).2 r).2 (Problem.mem_transfer.2 ?_)
    rw [regular.place here, gen_live here, kill_live here]
    by_cases free : r ∈ FactSet.ofList reserved
    · exact Or.inr (Liveness.mem_useDef_of_mem b.code free)
    · rcases Liveness.mem_useDef_of_mem_liveIn (.ofList reserved) free live
        FactSet.not_mem_empty with read | ⟨behind, kept⟩
      · exact Or.inr read
      · refine Or.inl ⟨((settled here).1 r).1 behind, ?_⟩
        rw [FactSet.mem_diff, not_and]
        exact fun written => absurd written kept

end MipsFlow
