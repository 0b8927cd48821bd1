import MipsFlow.Dataflow.Facts
import MipsFlow.Proofs.Extremal
import MipsFlow.Proofs.Lasting
import MipsFlow.Proofs.Linking
import MipsFlow.Proofs.Execution

/-!
# What available copies mean

A copy *holds* in a state if its two registers have the same value. `CopiesSound` says what the
facts about copies promise: nothing at the places where control comes in, on every edge what was
true at its beginning, and at the exit of a block only what its code keeps or makes. Fresh facts
keep the promise at every block (`analyze_copiesSound`).

`available_holds`: on every run, a copy that is available at the entry of a block holds there. The
facts may be out of date for some blocks, if the copy is known to hold at their exits.
-/

namespace MipsFlow

variable {V M : Type}

/-- The two registers of the copy have the same value. -/
def Copy.Holds (I : Interpretation V M) (c : Copy) (s : MachineState V M) : Prop :=
  I.read s c.dst = I.read s c.src

namespace Copy

variable {I : Interpretation V M} {reserved : FactSet Reg} {p : Instr} {c : Copy}
variable {s : MachineState V M}

theorem of?_eq_some (makes : Copy.of? reserved p = some c) :
    p.command? = some (.copy c.dst c.src) ∧ c.dst ≠ c.src ∧ c.dst ∉ reserved ∧
      c.src ∉ reserved := by
  unfold Copy.of? at makes
  split at makes
  · next dst src copies =>
    split at makes
    · contradiction
    · next guard =>
      cases makes
      simp only [Bool.or_eq_true, decide_eq_true_eq, FactSet.contains_iff, not_or] at guard
      obtain ⟨d, command, isCopy⟩ := Option.bind_eq_some_iff.1 copies
      rw [Command.copy?_eq_some.1 isCopy] at command
      exact ⟨command, guard.1.1, guard.1.2, guard.2⟩
  · contradiction

theorem touches_eq_false {rs : List Reg} :
    c.touches rs = false ↔ c.dst ∉ rs ∧ c.src ∉ rs := by
  simp [touches]

/-- A copy holds after an instruction that writes neither register. -/
theorem Holds.execInstr (holds : c.Holds I s) (kept : c.touches p.clobbers = false) :
    c.Holds I (I.execInstr p s) := by
  obtain ⟨dst, src⟩ := touches_eq_false.1 kept
  unfold Interpretation.execInstr
  unfold Instr.clobbers at dst src
  cases command : p.command? with
  | none => exact holds
  | some d =>
    simp only [command, Option.elim_some] at dst src ⊢
    unfold Holds
    rw [I.read_exec_of_not_mem_clobbers dst, I.read_exec_of_not_mem_clobbers src]
    exact holds

theorem Holds.execAll {code : List Instr} (holds : c.Holds I s)
    (kept : ∀ p ∈ code, c.touches p.clobbers = false) : c.Holds I (I.execAll code s) := by
  induction code generalizing s with
  | nil => exact holds
  | cons p rest ih =>
    refine ih (holds.execInstr (kept p (List.mem_cons_self ..))) fun q member => ?_
    exact kept q (List.mem_cons_of_mem _ member)

/-- Copying makes the two registers of the copy equal. -/
def Takes (I : Interpretation V M) (c : Copy) : Prop :=
  ∀ s, c.Holds I (I.exec (.copy c.dst c.src) s)

/-- Copying takes if it copies at all, and not to the zero register. -/
theorem takes (copies : I.Copies) (differ : c.dst ≠ c.src) (nonzero : c.dst.isZero = false) :
    c.Takes I := by
  intro s
  unfold Holds
  rw [I.exec_copy copies, I.read_set_self nonzero, I.read_set_of_ne differ.symm]

/-- The copies that are followed take if the zero register is reserved. -/
theorem takes_of_makes (copies : I.Copies) (reserves : Reg.zero ∈ reserved)
    (makes : Copy.of? reserved p = some c) : c.Takes I := by
  obtain ⟨-, differ, free, -⟩ := of?_eq_some makes
  refine takes copies differ (Bool.eq_false_iff.2 fun zero => free ?_)
  have isZero : c.dst = Reg.zero := by simpa [Reg.isZero] using zero
  exact isZero ▸ reserves

/-- A copy holds after the instruction that makes it. -/
theorem Takes.holds (takes : c.Takes I) (makes : Copy.of? reserved p = some c) :
    c.Holds I (I.execInstr p s) := by
  unfold Interpretation.execInstr
  rw [(of?_eq_some makes).1]
  exact takes s

/-- The copy is made by an instruction of the code behind which none touches it. -/
def LastsIn (reserved : FactSet Reg) (c : Copy) (code : List Instr) : Prop :=
  Lasts (fun p => Copy.of? reserved p = some c) (fun p => c.touches p.clobbers = true) code

/-- A copy holds behind code in which it lasts. -/
theorem Takes.holds_of_lasts (takes : c.Takes I) {code : List Instr}
    (lasts : c.LastsIn reserved code) : c.Holds I (I.execAll code s) := by
  obtain ⟨before, p, after, rfl, makes, kept⟩ := lasts
  rw [I.execAll_append]
  exact (takes.holds makes).execAll fun q member => by simpa using kept q member

end Copy

namespace Copies

variable {I : Interpretation V M} {reserved : FactSet Reg} {all gen kill : FactSet Copy}
variable {code : List Instr} {c : Copy}

/-! ## Summaries of blocks -/

/-- What flows out of a block: the copies that last in it, and those that were there if it does not
touch them. -/
theorem mem_genKill_fst : c ∈ (genKill reserved all gen kill code).1 ↔
    c.LastsIn reserved code ∨ (∀ p ∈ code, ¬ c.touches p.clobbers = true) ∧ c ∈ gen := by
  induction code generalizing gen kill with
  | nil => simp [genKill, Copy.LastsIn]
  | cons p rest ih =>
    rw [show genKill reserved all gen kill (p :: rest) = genKill reserved all _ _ rest from rfl, ih,
      Copy.LastsIn, Copy.LastsIn, Lasts.cons_iff, FactSet.mem_insertAll, FactSet.mem_filter,
      Option.mem_toList, List.forall_mem_cons, Bool.not_eq_true', ← Bool.not_eq_true]
    tauto

/-- What a block destroys: the copies that one of its instructions touches. -/
theorem mem_genKill_snd : c ∈ (genKill reserved all gen kill code).2 ↔
    c ∈ kill ∨ c ∈ all ∧ ∃ p ∈ code, c.touches p.clobbers = true := by
  induction code generalizing gen kill with
  | nil => simp [genKill]
  | cons p rest ih =>
    rw [show genKill reserved all gen kill (p :: rest) = genKill reserved all _ _ rest from rfl, ih,
      FactSet.mem_union, FactSet.mem_filter, List.exists_mem_cons_iff]
    tauto

/-- The copies that a block makes. -/
def madeBy (reserved : FactSet Reg) (code : List Instr) : FactSet Copy :=
  (genKill reserved .empty .empty .empty code).1

theorem mem_madeBy : c ∈ madeBy reserved code ↔ c.LastsIn reserved code := by
  simp [madeBy, mem_genKill_fst]

/-- A copy that a block makes holds at its exit. -/
theorem holds_of_madeBy (copies : I.Copies) (reserves : Reg.zero ∈ reserved)
    {s : MachineState V M} (member : c ∈ madeBy reserved code) : c.Holds I (I.execAll code s) := by
  have lasts := mem_madeBy.1 member
  have ⟨_, _, _, _, makes, _⟩ := lasts
  exact (Copy.takes_of_makes copies reserves makes).holds_of_lasts lasts

theorem mem_made_of_mem_madeBy (member : c ∈ madeBy reserved code) : c ∈ made reserved code := by
  obtain ⟨before, p, after, rfl, makes, -⟩ := mem_madeBy.1 member
  exact FactSet.mem_ofList.2 (List.mem_filterMap.2 ⟨p, by simp, makes⟩)

end Copies

/-! ## The promise of the facts -/

/-- What the facts about copies promise of a graph. They may be out of date for the code of some
blocks. -/
structure Facts.CopiesSound (f : Facts) (g : Graph) (outdated : Nat → Prop) : Prop where
  start : ∀ {id : Nat} {b : Block} {c : Copy}, g.block? id = some b →
    id = 0 ∨ b.entry = true ∨ b.pred = [] → c ∉ f.copies.entryOf id
  edge : ∀ {id next : Nat} {b : Block} {c : Copy}, g.block? id = some b → next ∈ b.succ →
    c ∈ f.copies.entryOf next → c ∈ f.copies.exitOf id
  block : ∀ {id : Nat} {b : Block} {c : Copy}, g.block? id = some b → ¬ outdated id →
    c ∈ f.copies.exitOf id →
    (c ∈ f.copies.entryOf id ∧ ∀ p ∈ b.code, c.touches p.clobbers = false) ∨
      c ∈ Copies.madeBy f.reserved b.code

/-- Facts that are right about more blocks are right about fewer. -/
theorem Facts.CopiesSound.mono {f : Facts} {g : Graph} {outdated outdated' : Nat → Prop}
    (sound : f.CopiesSound g outdated) (fewer : ∀ id, outdated id → outdated' id) :
    f.CopiesSound g outdated' :=
  ⟨sound.start, sound.edge, fun here fresh => sound.block here fun old => fresh (fewer _ old)⟩

section Analysis

variable {g : Graph} {reserved : List Reg}

theorem factsAt_map_blocks {α : Type} {make : Block → FactSet α} {id : Nat} {b : Block}
    (here : g.block? id = some b) : Problem.factsAt (g.blocks.map make) id = make b := by
  have isBlock : g.blocks[id]? = some b := here
  simp [Problem.factsAt, isBlock]

theorem made_subset_flatten {id : Nat} {b : Block} {c : Copy} (here : g.block? id = some b)
    (member : c ∈ Copies.made (.ofList reserved) b.code) :
    c ∈ Copies.made (.ofList reserved) g.flatten := by
  simp only [Copies.made, FactSet.mem_ofList, List.mem_filterMap] at member ⊢
  obtain ⟨p, position, makes⟩ := member
  exact ⟨p, Graph.mem_flatten here position, makes⟩

/-- The copies that a block of the graph makes. -/
theorem mem_gen_copies {id : Nat} {b : Block} {c : Copy} (here : g.block? id = some b) :
    c ∈ Problem.factsAt (Copies.problem g reserved).gen id ↔
      c ∈ Copies.madeBy (.ofList reserved) b.code := by
  simp only [Copies.problem, List.map_map, factsAt_map_blocks here]
  rw [Copies.mem_madeBy]
  exact Copies.mem_genKill_fst.trans (by simp)

/-- The copies that a block of the graph destroys. -/
theorem mem_kill_copies {id : Nat} {b : Block} {c : Copy} (here : g.block? id = some b) :
    c ∈ Problem.factsAt (Copies.problem g reserved).kill id ↔
      c ∈ Copies.made (.ofList reserved) g.flatten ∧ ∃ p ∈ b.code, c.touches p.clobbers = true := by
  simp only [Copies.problem, List.map_map, factsAt_map_blocks here]
  exact Copies.mem_genKill_snd.trans (by simp)

theorem copies_covers (g : Graph) (reserved : List Reg) : (Copies.problem g reserved).Covers := by
  intro _
  refine ⟨fun id c member => ?_, fun c member => by simp [Copies.problem] at member⟩
  cases here : g.block? id with
  | none =>
    have missing : g.blocks[id]? = none := here
    simp [Problem.factsAt, Copies.problem, missing] at member
  | some b =>
    exact made_subset_flatten here (Copies.mem_made_of_mem_madeBy ((mem_gen_copies here).1 member))

/-- Fresh facts keep their promise at every block. -/
theorem analyze_copiesSound (regular : g.Regular) :
    (Facts.analyze g reserved).CopiesSound g fun _ => False := by
  let p := Copies.problem g reserved
  let w := p.settle g (p.fuel g) (p.initial g)
  have inter : p.meet = .intersect := rfl
  have inside : w.flow.Inside g (Copies.made (.ofList reserved) g.flatten) :=
    (Problem.solution_completes regular).inside regular inter (copies_covers g reserved)
  have settled : ∀ {id b}, g.block? id = some b → p.Settled w id b :=
    fun here => Problem.solution_settled regular here
  refine ⟨?_, ?_, ?_⟩
  · intro id b c here comesIn member
    have flows := (Problem.mem_inflow_inter inter).1 (((settled here).1 c).1 member)
    have atBoundary : p.atBoundary b = true := by
      rcases comesIn with rfl | entry | alone
      · simp [p, Problem.atBoundary, Copies.problem, regular.place here]
      · simp [p, Problem.atBoundary, Copies.problem, entry]
      · simp [p, Problem.atBoundary, Copies.problem, alone]
    have impossible : c ∈ (FactSet.empty : FactSet Copy) := flows.2.1 atBoundary
    simp at impossible
  · intro id next b c here edge member
    obtain ⟨after, there, source⟩ := regular.succ_pred here edge
    have flows := (Problem.mem_inflow_inter inter).1 (((settled there).1 c).1 member)
    exact flows.2.2 id source
  · intro id b c here _ member
    have transfers := Problem.mem_transfer.1 (((settled here).2 c).1 member)
    rw [regular.place here, mem_kill_copies here, mem_gen_copies here] at transfers
    refine transfers.imp_left ?_
    rintro ⟨flows, spared⟩
    have entered := ((settled here).1 c).2 flows
    have everything := (inside id (Graph.lt_size_of_block? here)).1 c entered
    refine ⟨entered, fun p member => ?_⟩
    simpa using fun touched => spared ⟨everything, p, member, touched⟩

end Analysis

/-! ## Runs -/

/-- On every run from a place where control comes in, a copy that is available at the entry of a
block holds there. -/
theorem available_holds {I : Interpretation V M} (copies : I.Copies) {f : Facts} {g : Graph}
    {outdated : Nat → Prop} (reserves : Reg.zero ∈ f.reserved) (sound : f.CopiesSound g outdated)
    {start : Nat} {first : Block} (isFirst : g.block? start = some first)
    (comesIn : start = 0 ∨ first.entry = true) {s : MachineState V M} {c : Copy}
    (exits : ∀ (n id : Nat) (b : Block) (t : MachineState V M), outdated id →
      g.block? id = some b → I.visit g start s n = some (id, t) →
      c.Holds I (I.execAll b.code t))
    {n id : Nat} {t : MachineState V M} (visited : I.visit g start s n = some (id, t))
    (available : c ∈ f.copies.entryOf id) : c.Holds I t := by
  induction n generalizing id t with
  | zero =>
    cases visited
    exact absurd available (sound.start isFirst (comesIn.imp_right Or.inl))
  | succ n ih =>
    obtain ⟨last, before, b, visitedLast, here, goes, rfl⟩ :=
      I.visit_succ_eq_some visited
    have left := sound.edge here (I.mem_succ_of_next goes) available
    by_cases isOutdated : outdated last
    · exact exits n last b before isOutdated here visitedLast
    · rcases sound.block here isOutdated left with ⟨entered, kept⟩ | made
      · exact (ih visitedLast entered).execAll kept
      · exact Copies.holds_of_madeBy copies reserves made

end MipsFlow
