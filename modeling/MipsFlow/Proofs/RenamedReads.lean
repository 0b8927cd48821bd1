import MipsFlow.Proofs.Renaming

/-!
# What renaming reads does to a command

Renaming goes through the operands of a command and exchanges the register wherever it is read. The
list of what is read is then the old one renamed, and as many operands have changed as read the
register: `readSites_renameReads`, `countP_renamed`. What is written stays the same, unless the
command *updates* the register, that is, reads and writes it through one operand: the update moves
to the other register. `renameReads_exact` puts this together.
-/

namespace MipsFlow

namespace Command

variable {c : Command} {form : Form} {a b r : Reg}

/-! ## What is read -/

/-- Renaming changes exactly the operands that read the register. -/
theorem renamed_ne_iff (other : a ≠ b) (form? : Option Form) (i : Nat) (o : Operand) :
    (if readAt? form? i o = some a then o.withBase b else o) ≠ o ↔ readAt? form? i o = some a := by
  cases o with
  | reg r =>
    by_cases same : r = a <;> simp [readAt?, Operand.withBase, same, other.symm]
  | mem offset base =>
    by_cases same : base = a <;> simp [readAt?, Operand.withBase, same, other.symm]
  | imm n => simp [readAt?]
  | sym text => simp [readAt?]

/-- As many operands change as read the register. -/
theorem countP_renamed (other : a ≠ b) :
    ((c.renameReads a b).args.zip c.args).countP (fun pair => pair.1 ≠ pair.2) =
      c.readCount a := by
  have pairs : (c.renameReads a b).args.zip c.args = c.args.zipIdx.map fun place =>
      (if readAt? c.form? place.2 place.1 = some a then place.1.withBase b else place.1,
        place.1) := by
    have old : c.args = c.args.zipIdx.map Prod.fst := (List.zipIdx_map_fst 0 c.args).symm
    conv => lhs; rw [old]
    exact List.zip_map'
  rw [pairs, List.countP_map, readCount, readSites, List.countP_filterMap]
  refine List.countP_congr fun place _ => ?_
  have changes := renamed_ne_iff other c.form? place.2 place.1
  simp only [Function.comp_apply, decide_eq_true_eq, changes]
  cases readAt? c.form? place.2 place.1 <;> simp

/-! ## What is written -/

/-- A command that updates a register does nothing else than write it. -/
theorem clobbers_of_updates (updates : c.updates r = true) :
    c.defs = [r] ∧ c.clobbers = [r] := by
  cases known : c.form? with
  | none => simp [Command.updates, known] at updates
  | some form =>
    obtain ⟨i, written, read, here⟩ := (updates_iff known).1 updates
    obtain ⟨op, isOp, entry⟩ := form?_entry known (List.ne_nil_of_mem written)
    obtain ⟨rfl, family⟩ : form = .accumulate ∧ op.family = .arithmetic := by
      generalize op.family = family at entry
      unfold Family.form? at entry
      split at entry <;> cases entry <;> simp_all [Form.binary, Form.multiplier,
        Form.unary, Form.unaryReversed, Form.fetch, Form.put, Form.define, Form.use, Form.compare,
        Form.linkedCall, Form.useBoth, Form.testFlag]
    obtain rfl : i = 0 := List.mem_singleton.1 written
    have stays : c.leavesCode = false := by
      rw [leavesCode, has_of_op? isOp, has_of_op? isOp]
      cases op <;> simp [Opcode.family] at family <;> rfl
    have defs : c.defs = [r] := by simp [Command.defs, known, Form.accumulate, regsAt, here,
      Operand.reg?, List.eraseDups_cons]
    exact ⟨defs, (clobbers_eq_defs known stays).trans defs⟩

/-- An update of the register that is renamed becomes an update of the other one. -/
theorem updates_renameReads (known : c.form? = some form) (updates : c.updates a = true) :
    (c.renameReads a b).updates b = true := by
  obtain ⟨i, written, read, here⟩ := (updates_iff known).1 updates
  refine (updates_iff (form?_renameReads.trans known)).2 ⟨i, written, read, ?_⟩
  rw [getElem?_renameReads, here]
  simp [readAt?, known, read, Operand.withBase]

/-- Renaming reads in a command that is understood. The list of what is read is the old one with the
register exchanged, and as many operands have changed as read it. The registers that are written,
and those that may be written, are the same if and only if the command does not update the register;
an update of it becomes an update of the other one. -/
theorem renameReads_exact (known : c.isForeign = false) (other : a ≠ b) :
    (c.renameReads a b).readSites =
      c.readSites.map (fun site => ⟨site.index, if site.reg = a then b else site.reg⟩) ∧
    ((c.renameReads a b).args.zip c.args).countP (fun pair => pair.1 ≠ pair.2) = c.readCount a ∧
    (((c.renameReads a b).defs = c.defs ∧ (c.renameReads a b).clobbers = c.clobbers) ↔
      c.updates a = false) ∧
    (c.updates a = true → c.defs = [a] ∧ c.clobbers = [a] ∧
      (c.renameReads a b).defs = [b] ∧ (c.renameReads a b).clobbers = [b]) := by
  obtain ⟨form, isForm⟩ := isForeign_eq_false.1 known
  have moves : c.updates a = true → c.defs = [a] ∧ c.clobbers = [a] ∧
      (c.renameReads a b).defs = [b] ∧ (c.renameReads a b).clobbers = [b] := by
    intro updates
    obtain ⟨defs, clobbers⟩ := clobbers_of_updates updates
    exact ⟨defs, clobbers, clobbers_of_updates (updates_renameReads isForm updates)⟩
  refine ⟨readSites_renameReads, countP_renamed other, ⟨fun same => ?_, fun keeps => ?_⟩, moves⟩
  · rw [← Bool.not_eq_true]
    intro updates
    obtain ⟨old, -, new, -⟩ := moves updates
    have swapped : [b] = [a] := new.symm.trans (same.1.trans old)
    exact other (List.singleton_inj.1 swapped).symm
  · exact ⟨defs_renameReads keeps, clobbers_renameReads keeps isForm⟩

/-- A load whose destination is also its base: only the base is renamed. -/
theorem renameReads_exact_load :
    let c : Command := .ofOpcode .lw [.reg (.general 2), .mem (.number 4) (.general 2)]
    let d := c.renameReads (.general 2) (.general 5)
    c.isForeign = false ∧ d.args = [.reg (.general 2), .mem (.number 4) (.general 5)] ∧
      d.readSites = [⟨1, .general 5⟩] ∧ d.defs = c.defs ∧ d.clobbers = c.clobbers := by
  intro c d
  have known : c.isForeign = false := by decide
  obtain ⟨sites, -, ⟨-, kept⟩, -⟩ :=
    renameReads_exact known (show Reg.general 2 ≠ .general 5 by decide)
  have keeps : c.updates (.general 2) = false := by decide
  exact ⟨known, by decide, sites.trans (by decide), kept keeps⟩

/-- The sum in two operands writes the register that it was to read instead. -/
theorem renameReads_moves_update :
    ¬ ∀ c : Command, c.isForeign = false → ∀ a b : Reg, a ≠ b →
      (c.renameReads a b).defs = c.defs := by
  intro stays
  have moved := stays (.ofOpcode .addu [.reg (.general 8), .reg (.general 9)]) (by decide)
    (.general 8) (.general 5) (by decide)
  exact absurd moved (by decide)

end Command

end MipsFlow
