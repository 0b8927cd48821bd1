import Mathlib.Data.List.Basic
import MipsFlow.Proofs.Execution

/-!
# Renaming what a command reads

A command that reads one register in place of another does the same where the two hold the same
value, as long as no operand is both read and written: `exec_renameReads`, `decide_renameReads`.
An operand with both roles would be written to the new register as well.
-/

namespace MipsFlow

/-- Places that are counted again are the same. -/
theorem zipIdx_zipIdx {α : Type} (l : List α) (k : Nat) :
    (l.zipIdx k).zipIdx k = (l.zipIdx k).map fun x => (x, x.2) := by
  induction l generalizing k with
  | nil => rfl
  | cons a l ih => rw [List.zipIdx_cons, List.zipIdx_cons, ih, List.map_cons]

namespace Command

variable {c : Command} {form : Form} {a b r : Reg}

/-- No operand of the command is both read and written. -/
def isSeparate (c : Command) : Bool :=
  c.form?.all fun form => form.defs.all fun i => !form.uses.contains i

theorem not_mem_uses_of_separate (separate : c.isSeparate = true) (known : c.form? = some form)
    {i : Nat} (written : i ∈ form.defs) : i ∉ form.uses := by
  simp only [isSeparate, known, Option.all_some, List.all_eq_true, Bool.not_eq_true',
    Bool.eq_false_iff, ne_eq, List.contains_iff_mem] at separate
  exact separate i written

@[simp] theorem op?_renameReads : (c.renameReads a b).op? = c.op? := rfl

theorem getElem?_renameReads (i : Nat) : (c.renameReads a b).args[i]? =
    (c.args[i]?).map fun o => if readAt? c.form? i o = some a then o.withBase b else o := by
  simp only [renameReads, List.getElem?_map, List.getElem?_zipIdx, Option.map_map]
  congr 1
  funext o
  simp

theorem length_renameReads : (c.renameReads a b).args.length = c.args.length := by
  simp [renameReads]

/-- Renaming an operand that is not read does not touch it, and a memory place stays one. -/
theorem isReg_renamed {i : Nat} {o : Operand} {r : Reg} (unread : 0 ∉ form.uses) (first : i = 0) :
    (if readAt? (some form) i o = some a then o.withBase b else o).isReg r = o.isReg r := by
  subst first
  cases o with
  | reg q =>
    rw [if_neg]
    simp [readAt?, unread]
  | mem offset base => split <;> rfl
  | imm n => rw [if_neg (by simp [readAt?])]
  | sym text => rw [if_neg (by simp [readAt?])]

/-- Renaming keeps the roles of the operands. -/
@[simp] theorem form?_renameReads : (c.renameReads a b).form? = c.form? := by
  have division : ((c.renameReads a b).isMultiplierDivision && c.args.length = 3) =
      (c.isMultiplierDivision && c.args.length = 3) := by
    by_cases three : c.args.length = 3
    · obtain ⟨x, y, z, args⟩ := List.length_eq_three.1 three
      by_cases divides : c.op? = some .div ∨ c.op? = some .divu
      · -- only the first operand matters, and a division does not read it
        have unread : ∃ form, c.form? = some form ∧ 0 ∉ form.uses := by
          unfold Command.form?
          split
          · exact ⟨_, rfl, by decide⟩
          · refine ⟨.binary, ?_, by decide⟩
            rcases divides with isOp | isOp <;> simp [isOp, three, Opcode.family, Family.form?]
        obtain ⟨form, known, unread⟩ := unread
        have renamed : ∃ y' z', (c.renameReads a b).args =
            [if readAt? (some form) 0 x = some a then x.withBase b else x, y', z'] := by
          simp [renameReads, args, known]
        obtain ⟨y', z', renamed⟩ := renamed
        unfold isMultiplierDivision
        rw [renamed, args]
        simp only [isReg_renamed unread rfl]
        rfl
      · have other : (decide (c.op? = some .div) || decide (c.op? = some .divu)) = false := by
          simpa using divides
        have renamed : (decide ((c.renameReads a b).op? = some .div) ||
            decide ((c.renameReads a b).op? = some .divu)) = false := other
        unfold isMultiplierDivision
        simp only [renamed, other, Bool.false_and]
    · simp [three]
  unfold Command.form?
  rw [length_renameReads, division]
  rfl

/-- What an operand reads after renaming is what it has read, renamed. -/
theorem readAt?_renamed (form? : Option Form) (i : Nat) (o : Operand) :
    readAt? form? i (if readAt? form? i o = some a then o.withBase b else o) =
      (readAt? form? i o).map fun r => if r = a then b else r := by
  cases o with
  | reg r =>
    have reads (q : Reg) : readAt? form? i (.reg q) =
        if form?.all (·.uses.contains i) = true then some q else none := rfl
    by_cases role : form?.all (·.uses.contains i) = true
    · by_cases isOld : r = a <;>
        simp only [reads, role, isOld, if_true, Option.some.injEq, if_false, Operand.withBase,
          Option.map_some]
    · simp only [reads, role, if_false, reduceCtorEq, Option.map_none, Bool.false_eq_true]
  | mem offset base => by_cases isOld : base = a <;> simp [readAt?, isOld, Operand.withBase]
  | imm _ | sym _ => simp [readAt?]

/-- A renamed command reads at the same places. -/
theorem readSites_renameReads : (c.renameReads a b).readSites =
    c.readSites.map fun site => ⟨site.index, if site.reg = a then b else site.reg⟩ := by
  unfold readSites
  rw [form?_renameReads, renameReads]
  simp only
  rw [List.zipIdx_map, zipIdx_zipIdx, List.map_map, List.filterMap_map, List.map_filterMap]
  refine List.filterMap_congr fun place _ => ?_
  obtain ⟨o, i⟩ := place
  simp only [Function.comp_apply, Prod.map_apply, id_eq, readAt?_renamed, Option.map_map]
  rfl

/-- The register is read and written through one and the same operand. -/
def updates (c : Command) (r : Reg) : Bool :=
  c.form?.any fun form => (c.regsAt (form.defs.filter form.uses.contains)).contains r

theorem updates_iff (known : c.form? = some form) : c.updates r = true ↔
    ∃ i, i ∈ form.defs ∧ i ∈ form.uses ∧ c.args[i]? = some (.reg r) := by
  have isReg : ∀ o : Operand, o.reg? = some r ↔ o = .reg r := by
    intro o
    cases o <;> simp [Operand.reg?]
  simp [updates, known, regsAt, Option.bind_eq_some_iff, isReg, and_assoc]

theorem updates_of_separate (separate : c.isSeparate = true) : c.updates r = false := by
  cases known : c.form? with
  | none => simp [updates, known]
  | some form =>
    rw [← Bool.not_eq_true, updates_iff known]
    rintro ⟨i, written, read, -⟩
    exact not_mem_uses_of_separate separate known written read

/-- Renaming a register that is not updated keeps what is written. -/
theorem regsAt_renameReads (keeps : c.updates a = false) (known : c.form? = some form) :
    (c.renameReads a b).regsAt form.defs = c.regsAt form.defs := by
  unfold regsAt
  refine List.filterMap_congr fun i written => ?_
  rw [getElem?_renameReads]
  cases here : c.args[i]? with
  | none => rfl
  | some o =>
    cases o with
    | reg q =>
      have kept : readAt? c.form? i (.reg q) ≠ some a := by
        intro read
        simp only [readAt?, known, Option.all_some, Option.ite_none_right_eq_some,
          List.contains_iff_mem, Option.some.injEq] at read
        rw [← Bool.not_eq_true, updates_iff known] at keeps
        exact keeps ⟨i, written, read.1, read.2 ▸ here⟩
      simp [kept]
    | mem offset base =>
      simp only [Option.map_some, Option.bind_some]
      split <;> rfl
    | imm n => simp [readAt?]
    | sym text => simp [readAt?]

theorem defs_renameReads (keeps : c.updates a = false) :
    (c.renameReads a b).defs = c.defs := by
  unfold Command.defs
  rw [form?_renameReads]
  cases known : c.form? with
  | none => rfl
  | some form => simp only [regsAt_renameReads keeps known]

theorem clobbers_renameReads (keeps : c.updates a = false) (known : c.form? = some form) :
    (c.renameReads a b).clobbers = c.clobbers := by
  have sameForm : (c.renameReads a b).isForeign = c.isForeign := by
    simp [Command.isForeign]
  have sameLeave : (c.renameReads a b).leavesCode = c.leavesCode := rfl
  have understood : c.isForeign = false := isForeign_eq_false.2 ⟨form, known⟩
  unfold Command.clobbers
  rw [sameForm, sameLeave, defs_renameReads keeps, understood]
  rfl

theorem isSeparate_renameReads : (c.renameReads a b).isSeparate = c.isSeparate := by
  simp [isSeparate]

/-- Nothing is renamed in a command without an operand that reads the register. -/
theorem renameReads_of_no_site (unread : ∀ site ∈ c.readSites, site.reg ≠ a) :
    c.renameReads a b = c := by
  have args : (c.renameReads a b).args = c.args := by
    refine List.ext_getElem? fun i => ?_
    rw [getElem?_renameReads]
    cases here : c.args[i]? with
    | none => rfl
    | some o =>
      rw [Option.map_some, if_neg]
      intro read
      exact unread ⟨i, a⟩ (mem_readSites.2 ⟨o, here, read⟩) rfl
  obtain ⟨mnemonic, operands⟩ := c
  unfold renameReads at args ⊢
  simp only at args ⊢
  rw [args]

theorem renameReads_of_not_mem_uses (unread : a ∉ c.uses) : c.renameReads a b = c := by
  refine renameReads_of_no_site fun site member read => unread ?_
  obtain ⟨o, here, isRead⟩ := mem_readSites.1 member
  exact mem_uses_of_readAt here (read ▸ isRead)

/-- A renamed command reads the new register, and otherwise what it has read. -/
theorem mem_uses_renameReads (returns : (c.renameReads a b).isReturn = c.isReturn)
    (read : r ∈ (c.renameReads a b).uses) : r = b ∨ r ∈ c.uses := by
  unfold Command.uses at read ⊢
  rw [List.mem_eraseDups, List.mem_append, List.mem_append, form?_renameReads, returns] at read
  rw [List.mem_eraseDups, List.mem_append, List.mem_append]
  rcases read with (named | implied) | kept
  · obtain ⟨site, isSite, rfl⟩ := List.mem_map.1 named
    obtain ⟨o, here, isRead⟩ := mem_readSites.1 isSite
    rw [getElem?_renameReads] at here
    rw [form?_renameReads] at isRead
    obtain ⟨old, isOld, rfl⟩ := Option.map_eq_some_iff.1 here
    split at isRead
    · next renamed =>
      left
      cases old with
      | reg q =>
        simp only [Operand.withBase, readAt?] at isRead
        split at isRead
        · exact (Option.some.inj isRead).symm
        · contradiction
      | mem offset base => exact (Option.some.inj isRead).symm
      | imm n => contradiction
      | sym text => contradiction
    · refine Or.inr (Or.inl (Or.inl (List.mem_map.2 ⟨site, ?_, rfl⟩)))
      exact mem_readSites.2 ⟨old, isOld, isRead⟩
  · exact Or.inr (Or.inl (Or.inr implied))
  · exact Or.inr (Or.inr kept)

end Command

namespace Interpretation

variable {V M : Type} (I : Interpretation V M)
variable {c : Command} {form : Form} {s : MachineState V M} {a b : Reg}

theorem seen_renameReads (same : I.read s a = I.read s b) :
    I.seen (c.renameReads a b) s = I.seen c s := by
  unfold seen
  rw [Command.form?_renameReads]
  refine List.ext_getElem? fun i => ?_
  simp only [List.getElem?_map, List.getElem?_zipIdx, Nat.zero_add, Option.map_map,
    Command.getElem?_renameReads]
  cases c.args[i]? with
  | none => rfl
  | some o =>
    simp only [Option.map_some, Option.some.injEq, Function.comp_apply]
    split
    · next read =>
      cases o with
      | reg r =>
        simp only [Command.readAt?] at read
        split at read
        · next isRead =>
          obtain rfl := Option.some.inj read
          simp only [Operand.withBase, seenAt, isRead, if_true, same]
        · contradiction
      | mem offset base =>
        obtain rfl := Option.some.inj read
        simp only [Operand.withBase, seenAt, same]
      | imm n => simp [Command.readAt?] at read
      | sym text => simp [Command.readAt?] at read
    · rfl

theorem inputs_renameReads (same : I.read s a = I.read s b) :
    I.inputs (c.renameReads a b) s = I.inputs c s := by
  unfold inputs
  rw [I.seen_renameReads same, Command.form?_renameReads, Command.op?_renameReads]

theorem exec_renameReads (keeps : c.updates a = false) (known : c.form? = some form)
    (same : I.read s a = I.read s b) : I.exec (c.renameReads a b) s = I.exec c s := by
  have writes : (c.renameReads a b).writesMemory = c.writesMemory := rfl
  unfold exec
  rw [Command.form?_renameReads, known]
  simp only [written, Command.regsAt_renameReads keeps known, I.inputs_renameReads same,
    Command.clobbers_renameReads keeps known, writes]

theorem decide_renameReads (here : Nat) (known : c.form? = some form)
    (same : I.read s a = I.read s b) :
    I.decide here (c.renameReads a b) s = I.decide here c s := by
  unfold decide
  rw [Command.form?_renameReads, known, I.inputs_renameReads same]

end Interpretation

end MipsFlow
