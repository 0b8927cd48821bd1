import MipsFlow.Proofs.Listings
import MipsFlow.Proofs.RelabelledRuns

/-!
# Optimized programs written and read again

The words of a program that has been read are legible, and edits put no other words together
(`Optimizer.legible_of_run`). So an optimized program without notes can be written and read again.
What comes back has the same contents and comments but is numbered anew (`Program.reread`); since
identities stay unique (`Optimizer.numbered_of_run`), it is the old program under other identities
(`Program.relabel_reread`).
-/

namespace MipsFlow

/-! ## Words -/

/-- The words that are read back as they are written. -/
def Vocabulary.legible : Vocabulary where
  reg r := r.Named
  symbol text := Operand.Plain text.toList ∧ Operand.ofText text = .ok (.sym text)
  offset text := Operand.Symbolic text.toList
  mnemonic name := Opcode.ofName? name = none ∧ Source.IsMnemonic name.toList
  comment text := '\n' ∉ text.toList
  other content := content.Legible
  scratch := by decide +kernel
  silence := by simp

namespace Vocabulary

theorem legible_operand_iff {o : MipsFlow.Operand} : legible.Operand o ↔ o.Legible := by
  cases o with
  | reg r => rfl
  | imm value => rfl
  | mem offset base => cases offset <;> rfl
  | sym text => rfl

theorem legible_command_iff {c : MipsFlow.Command} : legible.Command c ↔ c.Legible := by
  constructor
  · intro admitted
    exact ⟨Mnemonic.legible_of_unknown admitted.mnemonic, fun o member =>
      legible_operand_iff.1 (admitted.args o member)⟩
  · intro isLegible
    refine ⟨fun name isUnknown => ?_, fun o member =>
      legible_operand_iff.2 (isLegible.args o member)⟩
    obtain ⟨word, same⟩ := isLegible.mnemonic
    rw [isUnknown] at word same
    refine ⟨?_, word⟩
    cases read : Opcode.ofName? name with
    | none => rfl
    | some op => simp [Mnemonic.ofName, Mnemonic.name, read] at same

theorem legible_admits_iff {p : Instr} :
    legible.Admits p ↔ p.content.Legible ∧ '\n' ∉ p.comment.toList := by
  have content : legible.Content p.content ↔ p.content.Legible := by
    cases p.content with
    | command c => exact legible_command_iff
    | label name => rfl
    | directive text => rfl
    | comment text indented => rfl
  exact ⟨fun admits => ⟨content.1 admits.content, admits.comment⟩,
    fun ⟨said, comment⟩ => ⟨content.2 said, comment⟩⟩

end Vocabulary

/-! ## Identities -/

/-- Identities are positive, below the next free one, and no two instructions share one. -/
structure Program.Numbered (program : Program) : Prop where
  positive : ∀ p ∈ program.code, 0 < p.id
  below : ∀ p ∈ program.code, p.id < program.nextId
  nodup : (program.code.map Instr.id).Nodup
  free : 0 < program.nextId

namespace Descends

variable {annotated : Bool} {a b : List Instr} {n m : Nat}

/-- Edits keep identities unique. -/
theorem numbered (descends : Descends annotated n m a b) (before : Program.Numbered ⟨a, n⟩) :
    Program.Numbered ⟨b, m⟩ where
  positive q member := by
    rcases descends.origin q member with ⟨p, old, becomes⟩ | isNew
    · exact becomes.id ▸ before.positive p old
    · exact Nat.lt_of_lt_of_le before.free isNew.above
  below := descends.below before.below
  nodup := descends.nodup before.below before.nodup
  free := Nat.lt_of_lt_of_le before.free descends.le

/-- Edits that leave no notes keep a program legible. -/
theorem legible (descends : Descends false n m a b) (before : Program.Legible ⟨a, n⟩) :
    Program.Legible ⟨b, m⟩ where
  words q member := by
    have admitted := descends.admits .legible (fun p old =>
      Vocabulary.legible_admits_iff.2 ⟨(before.words p old).content, (before.words p old).comment⟩)
    obtain ⟨content, comment⟩ := Vocabulary.legible_admits_iff.1 (admitted q member)
    refine ⟨content, comment, fun text indented alone => ?_⟩
    have noCommand : q.isCommand = false := by
      simp only at alone
      simp [Instr.isCommand, Instr.command?, alone]
    rcases descends.origin q member with ⟨p, old, becomes⟩ | isNew
    · rcases becomes.content with same | ⟨-, isCommand⟩
      · have remark := (before.words p old).alone text indented (same ▸ alone)
        exact becomes.comment.trans remark
      · rw [noCommand] at isCommand
        contradiction
    · rw [isNew.isCommand] at noCommand
      contradiction
  bare q member := by
    rcases descends.origin q member with ⟨p, old, becomes⟩ | isNew
    · exact (becomes.notes rfl).trans (before.bare p old)
    · exact isNew.notes rfl

end Descends

namespace Program

variable {program : Program} {items : List (Content × String)}

theorem numbered_ofItems (items : List (Content × String)) : (ofItems items).Numbered := by
  have ids := ids_ofItems items
  have bounds : ∀ p ∈ (ofItems items).code, 0 < p.id ∧ p.id < items.length + 1 := by
    intro p member
    have inside : p.id ∈ List.range' 1 items.length := ids ▸ List.mem_map_of_mem member
    rw [List.mem_range'_1] at inside
    omega
  exact ⟨fun p member => (bounds p member).1, fun p member => (bounds p member).2,
    ids ▸ List.nodup_range', Nat.succ_pos _⟩

/-! ## Reading again -/

/-- The program that comes back when this one is written and read again. -/
def reread (program : Program) : Program :=
  ofItems (program.code.map fun p => (p.content, p.comment))

/-- The old identity of an instruction that has been numbered anew. Identities that are still free
stand for those that were free before. -/
def renumber (ids : List Nat) (next : Nat) : Nat → Nat
  | 0 => 0
  | n + 1 => if inside : n < ids.length then ids[n] else next + (n - ids.length)

theorem freshFrom_renumber (ids : List Nat) (next : Nat) :
    FreshFrom (renumber ids next) (ids.length + 1) := by
  intro n later
  obtain ⟨n, rfl⟩ : ∃ k, n = k + 1 := ⟨n - 1, by omega⟩
  have outside : ¬ n < ids.length := by omega
  have outside' : ¬ n + 1 < ids.length := by omega
  simp only [renumber, dif_neg outside, dif_neg outside']
  omega

theorem renumber_injective {ids : List Nat} {next : Nat} (nodup : ids.Nodup)
    (positive : ∀ id ∈ ids, 0 < id) (below : ∀ id ∈ ids, id < next) (free : 0 < next) :
    Function.Injective (renumber ids next) := by
  have above (n : Nat) : 0 < renumber ids next (n + 1) := by
    rw [renumber]
    split
    · exact positive _ (List.getElem_mem _)
    · omega
  intro i j same
  cases i with
  | zero =>
    cases j with
    | zero => rfl
    | succ j => exact absurd same (Nat.ne_of_lt (above j))
  | succ i =>
    cases j with
    | zero => exact absurd same (Nat.ne_of_gt (above i))
    | succ j =>
      simp only [renumber] at same
      split at same <;> split at same
      · next insideI insideJ => exact congrArg Nat.succ ((nodup.getElem_inj_iff).1 same)
      · next insideI outsideJ =>
        have bound := below _ (List.getElem_mem insideI)
        omega
      · next outsideI insideJ =>
        have bound := below _ (List.getElem_mem insideJ)
        omega
      · omega

/-- Where identities are unique, so are those that they have been exchanged for. -/
theorem Numbered.injective (numbered : program.Numbered) :
    Function.Injective (renumber (program.code.map Instr.id) program.nextId) := by
  refine renumber_injective numbered.nodup (fun id member => ?_) (fun id member => ?_) numbered.free
  · obtain ⟨p, inside, rfl⟩ := List.mem_map.1 member
    exact numbered.positive p inside
  · obtain ⟨p, inside, rfl⟩ := List.mem_map.1 member
    exact numbered.below p inside

/-- Without notes, a program under its own identities is itself. -/
theorem relabel_id_of_bare (bare : ∀ p ∈ program.code, p.notes = []) :
    program.relabel id = program := by
  have code : program.code.map (Instr.relabel id) = program.code := by
    refine (List.map_congr_left fun p member => ?_).trans (List.map_id _)
    simp [Instr.relabel, ← bare p member]
  exact congrArg (Program.mk · program.nextId) code

/-- A program that is read again is the old one under other identities. -/
theorem relabel_reread (bare : ∀ p ∈ program.code, p.notes = []) :
    program.reread.relabel (renumber (program.code.map Instr.id) program.nextId) = program := by
  have nextId : renumber (program.code.map Instr.id) program.nextId program.reread.nextId =
      program.nextId := by simp [reread, ofItems, renumber]
  have code : program.reread.code.map
      (Instr.relabel (renumber (program.code.map Instr.id) program.nextId)) = program.code := by
    refine List.ext_getElem (by simp [reread, ofItems]) fun i _ inside => ?_
    have noNotes := bare program.code[i] (List.getElem_mem inside)
    have isId : renumber (program.code.map Instr.id) program.nextId (1 + i) =
        program.code[i].id := by
      rw [Nat.add_comm, renumber, dif_pos (by simpa using inside), List.getElem_map]
    simp [reread, ofItems, Instr.relabel, isId, ← noNotes]
  exact congrArg₂ Program.mk code nextId

end Program

namespace Optimizer

variable {o : Options} {program : Program} {final : State}

/-- Optimizing a program that has been read keeps its identities unique. -/
theorem numbered_of_run (numbered : program.Numbered) (ran : run o program = .ok final) :
    final.program.Numbered :=
  (run_descends ran).numbered numbered

/-- Optimizing a legible program without leaving notes gives a legible program. -/
theorem legible_of_run (silent : o.annotated = false) (legible : program.Legible)
    (ran : run o program = .ok final) : final.program.Legible := by
  have descends := run_descends ran
  rw [silent] at descends
  exact descends.legible legible

end Optimizer

end MipsFlow
