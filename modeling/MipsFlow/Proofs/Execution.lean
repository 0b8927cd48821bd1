import Mathlib.Data.List.Forall2
import MipsFlow.Proofs.Interpretation
import MipsFlow.Proofs.Roles

/-!
# Executing straight-line code

What one command leaves alone, what it depends on, and how the meaning of a sequence splits.

* `read_exec_of_not_mem_clobbers`: a command changes no register but those it may write.
* `inputs_congr`: the inputs of a command are settled by the registers in `uses` and by memory.
* `exec_of_single`: a command that writes one register and no memory is one assignment.
* `execAll_append`, `leave_append`: code runs piece by piece.
* `execAll_congr`, `leave_congr`: identities, comments and notes have no meaning.
-/

namespace MipsFlow

/-- Pieces of code that differ only in what `f` does not see are related one by one, which is what
an induction over both of them goes by. -/
theorem forall₂_of_map_eq {α : Type} {f : Instr → α} {a b : List Instr} (same : a.map f = b.map f) :
    List.Forall₂ (fun p q => f p = f q) a b := by
  rw [← List.forall₂_eq_eq_eq, List.forall₂_map_left_iff, List.forall₂_map_right_iff] at same
  exact same

namespace Command

variable {c : Command}

theorem isJump_of_isPure (pure : c.isPure = true) : c.isJump = false := by
  simp only [Command.isPure, Bool.and_eq_true, Bool.not_eq_true'] at pure
  exact pure.1.1.1.2

/-- What is known of a command without effects. -/
theorem form_of_isPure (pure : c.isPure = true) :
    ∃ form, c.form? = some form ∧ c.writesMemory = false ∧ c.clobbers = c.defs := by
  simp only [Command.isPure, Bool.and_eq_true, Bool.not_eq_true'] at pure
  obtain ⟨⟨⟨⟨known, stays⟩, keeps⟩, -⟩, serves⟩ := pure
  obtain ⟨form, isForm⟩ := Command.isForeign_eq_false.1 known
  have remains : c.leavesCode = false := Command.leavesCode_eq_false stays serves
  refine ⟨form, isForm, ?_, Command.clobbers_eq_defs isForm remains⟩
  rw [Command.writesMemory, Command.isStore, keeps, remains]
  rfl

theorem leavesCode_of_silent (silent : c.writesMemory = false) : c.leavesCode = false :=
  (Bool.or_eq_false_iff.1 silent).2

end Command

namespace MachineState

variable {V M : Type} {s : MachineState V M} {r : Reg} {v zero : V}

/-- The value of a register, of which the zero register has a fixed one. -/
def read (zero : V) (s : MachineState V M) (r : Reg) : V := if r.isZero then zero else s.regs r

theorem regs_set_of_ne {q : Reg} (other : q ≠ r) : (s.set r v).regs q = s.regs q := by
  simp [set, other]

theorem read_set_self (nonzero : r.isZero = false) : (s.set r v).read zero r = v := by
  simp [read, set, nonzero]

theorem read_set_of_ne {q : Reg} (other : q ≠ r) : (s.set r v).read zero q = s.read zero q := by
  simp [read, regs_set_of_ne other]

theorem set_set {w : V} : (s.set r v).set r w = s.set r w := by
  ext q
  · simp only [set]
    split <;> rfl
  · rfl

theorem set_zero (zero : r.isZero = true) : s.set r v = s := by
  ext q
  · simp [set, zero]
  · rfl

end MachineState

namespace Interpretation

variable {V M : Type} (I : Interpretation V M)
variable {c d : Command} {form : Form} {s t : MachineState V M} {r q : Reg} {v : V}

/-- A copy of a register writes what it reads. -/
def Copies : Prop :=
  ∀ (x : V) (mem : M), I.result ⟨some .move, [.unread, .value x], [], mem⟩ = x

/-! ## Reading -/

theorem read_eq_regs (nonzero : r.isZero = false) : I.read s r = s.regs r := by
  simp [read, nonzero]

theorem read_zero (zero : r.isZero = true) : I.read s r = I.zero := by
  simp [read, zero]

theorem read_congr (same : s.regs r = t.regs r) : I.read s r = I.read t r := by
  unfold read
  rw [same]

theorem read_set_of_ne (other : q ≠ r) : I.read (s.set r v) q = I.read s q :=
  MachineState.read_set_of_ne other

theorem read_set_self (nonzero : r.isZero = false) : I.read (s.set r v) r = v :=
  MachineState.read_set_self nonzero

/-- Writing a register what it holds changes nothing. -/
theorem set_read_self : s.set r (I.read s r) = s := by
  ext q
  · simp only [MachineState.set]
    split
    · next here =>
      obtain ⟨rfl, nonzero⟩ := here
      exact I.read_eq_regs (by simpa using nonzero)
    · rfl
  · rfl

/-! ## What a command leaves alone -/

theorem regs_exec_of_not_mem_clobbers (kept : r ∉ c.clobbers) :
    (I.exec c s).regs r = s.regs r := by
  unfold exec
  split
  · next form known =>
    have undefined : r ∉ c.regsAt form.defs := fun named =>
      kept (Command.mem_clobbers_of_mem_defs (Command.mem_defs.2 ⟨form, known, Or.inl named⟩))
    simp [written, undefined, kept]
  · simp [kept]

theorem read_exec_of_not_mem_clobbers (kept : r ∉ c.clobbers) :
    I.read (I.exec c s) r = I.read s r :=
  I.read_congr (I.regs_exec_of_not_mem_clobbers kept)

theorem mem_exec (known : c.form? = some form) (silent : c.writesMemory = false) :
    (I.exec c s).mem = s.mem := by
  simp [exec, known, silent]

/-- A known command that writes a single operand and no memory is one assignment. -/
theorem exec_of_single (known : c.form? = some form) (silent : c.writesMemory = false)
    (single : c.regsAt form.defs = [r]) : I.exec c s = s.set r (I.result (I.inputs c s)) := by
  have stays := Command.leavesCode_of_silent silent
  have alone : form.impliedDefs = [] :=
    Command.impliedDefs_of_defs known fun none => by simp [Command.regsAt, none] at single
  have changed : c.clobbers = [r] := by
    rw [Command.clobbers_eq_defs known stays]
    simp only [Command.defs, known, single, alone, List.append_nil]
    rfl
  ext q
  · simp only [exec, known, written, MachineState.set, single, changed, List.mem_singleton]
    by_cases here : q = r
    · subst here
      cases q.isZero <;> simp
    · simp [here]
  · exact I.mem_exec known silent

/-- A known command without a destination in a register, that writes no memory, does nothing. -/
theorem exec_of_no_defs (known : c.form? = some form) (silent : c.writesMemory = false)
    (nowhere : c.regsAt form.defs = []) (alone : form.impliedDefs = []) : I.exec c s = s := by
  have stays := Command.leavesCode_of_silent silent
  ext q
  · refine I.regs_exec_of_not_mem_clobbers ?_
    rw [Command.clobbers_eq_defs known stays, Command.mem_defs]
    rintro ⟨form', known', target⟩
    cases known.symm.trans known'
    simp [nowhere, alone] at target
  · exact I.mem_exec known silent

theorem exec_copy (copies : I.Copies) (dst src : Reg) :
    I.exec (.copy dst src) s = s.set dst (I.read s src) := by
  rw [I.exec_of_single (c := .copy dst src) rfl rfl rfl]
  exact congrArg (s.set dst) (copies _ _)

/-! ## What a command depends on -/

theorem seenAt_congr {form? : Option Form} {i : Nat} {o : Operand}
    (same : ∀ r, Command.readAt? form? i o = some r → I.read s r = I.read t r) :
    I.seenAt form? s i o = I.seenAt form? t i o := by
  cases o with
  | reg r =>
    simp only [seenAt]
    split
    · next read =>
      rw [same r (by simp only [Command.readAt?, read, if_true])]
    · rfl
  | mem offset base =>
    simp only [seenAt]
    rw [same base rfl]
  | imm n => rfl
  | sym text => rfl

theorem seen_congr (same : ∀ r ∈ c.uses, I.read s r = I.read t r) : I.seen c s = I.seen c t := by
  unfold seen
  refine List.map_congr_left fun ⟨o, i⟩ member => ?_
  have here : c.args[i]? = some o := List.mem_zipIdx_iff_getElem?.1 member
  exact I.seenAt_congr fun r read => same r (Command.mem_uses_of_readAt here read)

theorem inputs_congr (same : ∀ r ∈ c.uses, I.read s r = I.read t r) (mem : s.mem = t.mem) :
    I.inputs c s = I.inputs c t := by
  unfold inputs
  rw [I.seen_congr same, mem]
  cases known : c.form? with
  | none => rfl
  | some form =>
    have implied : form.impliedUses.map (I.read s) = form.impliedUses.map (I.read t) :=
      List.map_congr_left fun r read => same r (Command.mem_uses_of_implied known read)
    simp [implied]

/-! ## Instructions -/

section Instructions

variable {p : Instr} {c : Command}

theorem execInstr_of_command (command : p.command? = some c) : I.execInstr p s = I.exec c s := by
  rw [execInstr, command, Option.elim_some]

/-- A jump decides where control goes. -/
theorem decideInstr_of_jump (command : p.command? = some c) (jumps : c.isJump = true)
    (here : Nat) : I.decideInstr here p s = some (I.decide here c s) := by
  simp [decideInstr, command, Option.filter, jumps]

/-- Only jumps decide. -/
theorem decideInstr_of_stays (stays : p.isJump = false) (here : Nat) :
    I.decideInstr here p s = none := by
  unfold decideInstr
  cases command : p.command? with
  | none => rfl
  | some c =>
    rw [Instr.isJump_of_command command] at stays
    simp [Option.filter, stays]

end Instructions

/-! ## Sequences -/

@[simp] theorem execAll_nil : I.execAll [] s = s := rfl

@[simp] theorem execAll_cons (p : Instr) (rest : List Instr) :
    I.execAll (p :: rest) s = I.execAll rest (I.execInstr p s) := rfl

theorem execAll_append (first second : List Instr) :
    I.execAll (first ++ second) s = I.execAll second (I.execAll first s) := by
  induction first generalizing s with
  | nil => rfl
  | cons p rest ih => exact ih

@[simp] theorem leave_cons (here : Nat) (p : Instr) (rest : List Instr) :
    I.leave here (p :: rest) s =
      (I.leave here rest (I.execInstr p s)).or (I.decideInstr here p s) := rfl

theorem leave_append (here : Nat) (first second : List Instr) :
    I.leave here (first ++ second) s =
      (I.leave here second (I.execAll first s)).or (I.leave here first s) := by
  induction first generalizing s with
  | nil => exact (Option.or_none).symm
  | cons p rest ih => simp [ih, Option.or_assoc]

/-- Only the last jump decides, so code without jumps does not. -/
theorem leave_eq_none {here : Nat} {code : List Instr} (plain : ∀ p ∈ code, p.isJump = false) :
    I.leave here code s = none := by
  induction code generalizing s with
  | nil => rfl
  | cons p rest ih =>
    obtain ⟨stays, later⟩ := List.forall_mem_cons.1 plain
    rw [leave_cons, ih later, I.decideInstr_of_stays stays]
    rfl

/-! ## Identities, comments and notes -/

theorem command?_congr {p q : Instr} (same : p.content = q.content) :
    p.command? = q.command? := by
  unfold Instr.command?
  rw [same]

theorem execInstr_congr {p q : Instr} (same : p.content = q.content) :
    I.execInstr p s = I.execInstr q s := by
  unfold execInstr
  rw [command?_congr same]

theorem execAll_congr {a b : List Instr} (same : a.map Instr.content = b.map Instr.content) :
    I.execAll a s = I.execAll b s := by
  replace same := forall₂_of_map_eq same
  induction same generalizing s with
  | nil => rfl
  | cons same _ ih =>
    rw [execAll_cons, execAll_cons, I.execInstr_congr same]
    exact ih

theorem leave_congr {here : Nat} {a b : List Instr}
    (same : a.map Instr.content = b.map Instr.content) : I.leave here a s = I.leave here b s := by
  replace same := forall₂_of_map_eq same
  induction same generalizing s with
  | nil => rfl
  | cons same _ ih =>
    rw [leave_cons, leave_cons, I.execInstr_congr same, ih]
    unfold decideInstr
    rw [command?_congr same]

/-! ## Runs of a graph -/

variable {g : Graph} {b : Block} {start id n : Nat} {t : MachineState V M}

/-- Control goes to a successor only. -/
theorem mem_succ_of_next (goes : I.next b s = some id) : id ∈ b.succ := by
  simpa using (Option.filter_eq_some_iff.1 goes).2

/-- A run comes to a block from the one before, with what that one leaves. -/
theorem visit_succ_eq_some (visited : I.visit g start s (n + 1) = some (id, t)) :
    ∃ last u b, I.visit g start s n = some (last, u) ∧ g.block? last = some b ∧
      I.next b u = some id ∧ t = I.execAll b.code u := by
  obtain ⟨⟨last, u⟩, before, hops⟩ := Option.bind_eq_some_iff.1 visited
  obtain ⟨b, here, moves⟩ := Option.bind_eq_some_iff.1 hops
  obtain ⟨next, goes, arrives⟩ := Option.map_eq_some_iff.1 moves
  cases arrives
  exact ⟨last, u, b, before, here, goes, rfl⟩

end Interpretation

end MipsFlow
