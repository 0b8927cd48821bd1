import Mathlib.Data.List.Permutation
import MipsFlow.Proofs.Machine

/-!
# Meanings that keep to the table

A `Semantics` gives every command a meaning, and keeps what the table of operand roles promises:

* a command changes no register but those that it may write (`frame`);
* a temporary that a command does not read makes no difference to it (`unread`): not to the other
  registers, to memory or to a decision, nor to the temporary itself if the command writes it;
* what an operation computes depends on its opcode, its literals and symbols, and the values of the
  registers that it reads, and not on where it goes (`computes`); if the opcode commutes, it does
  not depend on the order of the operands either (`commutes`);
* a copy copies (`copies`).

Nothing else is asked. Commands without a form, calls and requests to the system may look at every
register but the temporaries, and may make anything of memory and of the registers that they may
write. The machine is such a semantics (`Machine.semantics`).
-/

namespace MipsFlow

variable {V M : Type}

/-- The operand is no memory place. -/
def Operand.isValue : Operand → Bool
  | .mem _ _ => false
  | .reg _ | .imm _ | .sym _ => true

namespace MachineState

/-- What an operation sees of an operand that it reads. The literal zero is the value of the zero
register. -/
def sees (zero : V) (s : MachineState V M) : Operand → Seen V
  | .reg r => .value (s.read zero r)
  | .imm n => if n = 0 then .value zero else .literal n
  | .mem offset base => .place offset (s.read zero base)
  | .sym text => .symbol text

/-- The states differ in one register at most. -/
structure AgreeBut (t : Reg) (s u : MachineState V M) : Prop where
  mem : s.mem = u.mem
  regs : ∀ r, r ≠ t → s.regs r = u.regs r

end MachineState

/-- A meaning of the commands that keeps to the table of operand roles. -/
structure Semantics (V M : Type) where
  /-- The value of the zero register. -/
  zero : V
  /-- The state after a command. -/
  exec : Command → MachineState V M → MachineState V M
  /-- The block that a jump at the end of the given block goes to. -/
  goes : Nat → Command → MachineState V M → Option Nat
  /-- What an operation makes of its operands. -/
  result : Opcode → List (Seen V) → V
  frame : ∀ {c : Command} {r : Reg} (s : MachineState V M), r ∉ c.clobbers →
    (exec c s).regs r = s.regs r
  unread : ∀ {c : Command} {t : Reg} {s u : MachineState V M}, t ∈ Reg.scratch → t ∉ c.uses →
    s.AgreeBut t u → (exec c s).AgreeBut t (exec c u) ∧
      (t ∈ c.defs → (exec c s).regs t = (exec c u).regs t) ∧
      ∀ here, goes here c s = goes here c u
  computes : ∀ {op : Opcode} {d : Reg} {xs : List Operand} (s : MachineState V M),
    d.isZero = false → op.Computes xs.length → (∀ x ∈ xs, x.isValue = true) →
    exec (.ofOpcode op (.reg d :: xs)) s = s.set d (result op (xs.map (s.sees zero)))
  commutes : ∀ {op : Opcode} {xs ys : List (Seen V)}, op.has .commutes = true → xs.Perm ys →
    result op xs = result op ys
  copies : ∀ (d r : Reg) (s : MachineState V M), exec (.copy d r) s = s.set d (s.read zero r)

namespace MachineState

variable {s u : MachineState V M} {t : Reg}

namespace AgreeBut

theorem refl (t : Reg) (s : MachineState V M) : AgreeBut t s s := ⟨rfl, fun _ _ => rfl⟩

theorem set (agree : AgreeBut t s u) (d : Reg) (x : V) : AgreeBut t (s.set d x) (u.set d x) := by
  refine ⟨agree.mem, fun r other => ?_⟩
  simp only [MachineState.set]
  split
  · rfl
  · exact agree.regs r other

/-- Only the register itself is different after it is written. -/
theorem set_right (s : MachineState V M) (t : Reg) (x : V) : AgreeBut t s (s.set t x) :=
  ⟨rfl, fun _ other => (regs_set_of_ne other).symm⟩

theorem eq_of_regs (agree : AgreeBut t s u) (same : s.regs t = u.regs t) : s = u := by
  refine MachineState.ext (fun r => ?_) agree.mem
  by_cases here : r = t
  · exact here ▸ same
  · exact agree.regs r here

end AgreeBut

end MachineState

namespace Semantics

variable (S : Semantics V M) {s u : MachineState V M} {p : Instr} {t : Reg}

/-- What an operation computes from its operands in a state. -/
def apply (op : Opcode) (xs : List Operand) (s : MachineState V M) : V :=
  S.result op (xs.map (s.sees S.zero))

/-! ## Code -/

/-- The state after an instruction; only commands do anything. -/
def execInstr (p : Instr) (s : MachineState V M) : MachineState V M :=
  p.command?.elim s (S.exec · s)

/-- The state after straight-line code. -/
def execAll (code : List Instr) (s : MachineState V M) : MachineState V M :=
  code.foldl (fun s p => S.execInstr p s) s

/-- The decision of an instruction, if it is a jump. -/
def decideInstr (here : Nat) (p : Instr) (s : MachineState V M) : Option (Option Nat) :=
  (p.command?.filter Command.isJump).map (S.goes here · s)

/-- The decision of the last jump in the code of a block. -/
def leave (here : Nat) : List Instr → MachineState V M → Option (Option Nat)
  | [], _ => none
  | p :: rest, s => (leave here rest (S.execInstr p s)).or (S.decideInstr here p s)

@[simp] theorem execAll_nil : S.execAll [] s = s := rfl

@[simp] theorem execAll_cons (rest : List Instr) :
    S.execAll (p :: rest) s = S.execAll rest (S.execInstr p s) := rfl

theorem execAll_append (first second : List Instr) :
    S.execAll (first ++ second) s = S.execAll second (S.execAll first s) := List.foldl_append

@[simp] theorem leave_cons (here : Nat) (rest : List Instr) :
    S.leave here (p :: rest) s =
      (S.leave here rest (S.execInstr p s)).or (S.decideInstr here p s) :=
  rfl

theorem leave_append (here : Nat) (first second : List Instr) :
    S.leave here (first ++ second) s =
      (S.leave here second (S.execAll first s)).or (S.leave here first s) := by
  induction first generalizing s with
  | nil => simp [leave]
  | cons p rest ih => simp [ih, Option.or_assoc]

theorem execInstr_of_command {c : Command} (command : p.command? = some c) :
    S.execInstr p s = S.exec c s := by
  rw [execInstr, command, Option.elim_some]

theorem decideInstr_of_stays {c : Command} (command : p.command? = some c)
    (stays : c.isJump = false) (here : Nat) : S.decideInstr here p s = none := by
  simp [decideInstr, command, Option.filter, stays]

/-! ## A temporary that nobody reads -/

theorem regs_execInstr (s : MachineState V M) (kept : t ∉ p.clobbers) :
    (S.execInstr p s).regs t = s.regs t := by
  unfold Instr.clobbers at kept
  cases command : p.command? with
  | none => simp [execInstr, command]
  | some c =>
    rw [command, Option.elim_some] at kept
    rw [S.execInstr_of_command command, S.frame s kept]

/-- States that differ in a temporary that an instruction does not read do so afterwards, and not
even that if the instruction writes it; they lead to the same decision. -/
theorem agree_execInstr (scratch : t ∈ Reg.scratch) (unread : t ∉ p.uses)
    (agree : s.AgreeBut t u) : (S.execInstr p s).AgreeBut t (S.execInstr p u) ∧
      (t ∈ p.defs → S.execInstr p s = S.execInstr p u) ∧
      ∀ here, S.decideInstr here p s = S.decideInstr here p u := by
  unfold execInstr decideInstr Instr.defs
  unfold Instr.uses at unread
  cases command : p.command? with
  | none => exact ⟨agree, by simp, fun _ => rfl⟩
  | some c =>
    rw [command, Option.elim_some] at unread
    obtain ⟨after, written, decides⟩ := S.unread scratch unread agree
    refine ⟨after, fun defines => after.eq_of_regs (written defines), fun here => ?_⟩
    rw [Option.filter_some]
    split
    · rw [Option.map_some, Option.map_some, decides]
    · rfl

/-- States that differ in a temporary that is not live lead to the same decision, to the same
memory, and to the same values in all registers but that one, and in that one if it is live in the
end. -/
theorem agree_execAll {reserved out : FactSet Reg} {unresolved : Bool} {code : List Instr}
    (scratch : t ∈ Reg.scratch) (dead : t ∉ Liveness.liveIn reserved unresolved out code)
    (agree : s.AgreeBut t u) :
    (S.execAll code s).AgreeBut t (S.execAll code u) ∧
      (t ∈ out → S.execAll code s = S.execAll code u) ∧
      ∀ here, S.leave here code s = S.leave here code u := by
  induction code generalizing s u with
  | nil => exact ⟨agree, fun live => absurd live dead, fun _ => rfl⟩
  | cons p rest ih =>
    rw [Liveness.mem_liveIn_cons, not_or] at dead
    obtain ⟨unread, later⟩ := dead
    obtain ⟨after, written, decides⟩ := S.agree_execInstr scratch
      (fun read => unread (Liveness.mem_usesBefore_of_mem_uses read)) agree
    simp only [execAll_cons, leave_cons, decides]
    by_cases defines : t ∈ p.defs
    · rw [written defines]
      exact ⟨.refl t _, fun _ => rfl, fun _ => rfl⟩
    · obtain ⟨ends, same, leaves⟩ := ih (fun live => later ⟨live, Or.inr defines⟩) after
      refine ⟨ends, same, fun here => ?_⟩
      rw [leaves]

/-! ## Interpretations that are semantics -/

section Interpretations

variable {S} {I : Interpretation V M}

theorem execInstr_eq (exec : S.exec = I.exec) (p : Instr) : S.execInstr p s = I.execInstr p s := by
  rw [execInstr, exec]
  rfl

/-- Code means the same in an interpretation whose commands do the same. -/
theorem execAll_eq (exec : S.exec = I.exec) (code : List Instr) :
    S.execAll code s = I.execAll code s := by
  induction code generalizing s with
  | nil => rfl
  | cons p rest ih => rw [execAll_cons, execInstr_eq exec, ih, I.execAll_cons]

theorem leave_eq (exec : S.exec = I.exec) (goes : S.goes = I.decide) (here : Nat)
    (code : List Instr) : S.leave here code s = I.leave here code s := by
  induction code generalizing s with
  | nil => rfl
  | cons p rest ih =>
    rw [leave_cons, execInstr_eq exec, ih, decideInstr, goes, I.leave_cons]
    rfl

end Interpretations

end Semantics

/-! ## Interpretations that pass over foreign commands -/

theorem nonzero_of_mem_scratch {t : Reg} (member : t ∈ Reg.scratch) : t.isZero = false := by
  revert t
  decide

/-- Where foreign commands do nothing, and go where they go whatever the state is, a temporary that
a command does not read makes no difference to it. -/
theorem Interpretation.exec_unread (I : Interpretation V M) (idles : ∀ c s, I.foreign c s = s)
    (goes : ∀ here c s u, I.foreignGoes here c s = I.foreignGoes here c u) {c : Command} {t : Reg}
    {s u : MachineState V M} (scratch : t ∈ Reg.scratch) (unread : t ∉ c.uses)
    (agree : s.AgreeBut t u) : (I.exec c s).AgreeBut t (I.exec c u) ∧
      (t ∈ c.defs → (I.exec c s).regs t = (I.exec c u).regs t) ∧
      ∀ here, I.decide here c s = I.decide here c u := by
  cases known : c.form? with
  | none =>
    have stays : ∀ w, I.exec c w = w := by
      intro w
      ext r <;> simp [Interpretation.exec, known, idles]
    have writesNothing : c.defs = [] := by simp [Command.defs, known]
    refine ⟨?_, by simp [writesNothing], fun here => ?_⟩
    · rw [stays, stays]
      exact agree
    · simp only [Interpretation.decide, known]
      exact goes here c s u
  | some form =>
    have same : I.inputs c s = I.inputs c u := by
      refine I.inputs_congr (fun r read => I.read_congr (agree.regs r ?_)) agree.mem
      rintro rfl
      exact unread read
    have after : ∀ r, r ≠ t ∨ r ∈ c.clobbers → (I.exec c s).regs r = (I.exec c u).regs r := by
      intro r among
      cases zero : r.isZero with
      | true =>
        have other : r ≠ t := by
          rintro rfl
          rw [nonzero_of_mem_scratch scratch] at zero
          contradiction
        simp only [Interpretation.exec, known, zero, if_true]
        exact agree.regs r other
      | false =>
        rw [← I.read_eq_regs zero, ← I.read_eq_regs zero]
        refine I.read_exec_congr known same ?_
        exact among.symm.imp_right fun other => I.read_congr (agree.regs r other)
    refine ⟨⟨I.mem_exec_congr known same agree.mem, fun r other => after r (Or.inl other)⟩, ?_, ?_⟩
    · exact fun written => after t (Or.inr (Command.mem_clobbers_of_mem_defs written))
    · intro here
      simp only [Interpretation.decide, known, same]

/-! ## The machine -/

namespace Machine

variable {places : String → Option Nat} {s u : State}

/-- What an operation on words makes of its operands. -/
def resultOf (op : Opcode) : List (Seen Word) → Word
  | [x] => (Word.unary? op x.word).getD 0
  | [x, y] => (Word.binary? op x.word y.word).getD 0
  | _ => 0

/-- The order of the operands of an operation that commutes makes no difference. -/
theorem resultOf_perm {op : Opcode} {xs ys : List (Seen Word)} (commutes : op.has .commutes = true)
    (perm : xs.Perm ys) : resultOf op xs = resultOf op ys := by
  match xs with
  | [] => rw [List.nil_perm.1 perm]
  | [x] => rw [List.singleton_perm.1 perm]
  | [x, y] =>
    rcases List.perm_pair.1 perm.symm with rfl | rfl
    · rfl
    · simp only [resultOf, Word.binary?_comm commutes]
  | x :: y :: z :: more =>
    match ys, perm.length_eq with
    | x' :: y' :: z' :: more', _ => rfl

/-- The machine sees the words of the operands that an operation reads. -/
theorem word_sees {form : Form} {i : Nat} {x : Operand} (value : x.isValue = true)
    (read : form.uses.contains i = true) :
    ((meaning places).seenAt (some form) s i x).word = (s.sees 0 x).word := by
  cases x with
  | reg r =>
    simp only [Interpretation.seenAt, Option.all_some, read, if_true]
    rfl
  | imm n =>
    by_cases zero : n = 0
    · subst zero
      rfl
    · simp [Interpretation.seenAt, MachineState.sees, zero]
  | mem offset base => simp [Operand.isValue] at value
  | sym text => rfl

/-- An operation on one value. -/
theorem result_two {op : Opcode} (arith : op.has .arith = true) {form? : Option Form} {i : Nat}
    {x : Operand} (value : x.isValue = true) (named : List Word) (mem : Memory) :
    Words.result ⟨some op, [.unread, (meaning places).seenAt form? s i x], named, mem⟩ =
      (Word.unary? op ((meaning places).seenAt form? s i x).word).getD 0 := by
  have others : op ≠ .li ∧ op ≠ .move ∧ op ≠ .la ∧ op ≠ .lui := by
    refine ⟨?_, ?_, ?_, ?_⟩ <;> rintro rfl <;> exact absurd arith (by decide)
  have noPlace : ∀ offset base, (meaning places).seenAt form? s i x ≠ .place offset base := by
    intro offset base
    cases x with
    | reg r =>
      simp only [Interpretation.seenAt]
      split <;> simp
    | mem offset base => simp [Operand.isValue] at value
    | _ => simp [Interpretation.seenAt]
  unfold Words.result
  split <;> simp_all

theorem exec_computes {op : Opcode} {d : Reg} {xs : List Operand} (s : State)
    (nonzero : d.isZero = false) (computes : op.Computes xs.length)
    (values : ∀ x ∈ xs, x.isValue = true) :
    (meaning places).exec (.ofOpcode op (.reg d :: xs)) s =
      s.set d (resultOf op (xs.map (s.sees 0))) := by
  obtain ⟨-, -, silent, -⟩ := Command.form_of_isPure (Command.isPure_of_computes nonzero computes)
  rcases Command.form_of_computes nonzero computes with ⟨x, rfl, form⟩ | ⟨x, y, rfl, form⟩
  · have word : ((meaning places).seenAt (some .unary) s 1 x).word = (s.sees 0 x).word :=
      word_sees (values x (by simp)) rfl
    rw [(meaning places).exec_of_single form silent rfl]
    refine congrArg (s.set d) ?_
    simp only [Interpretation.inputs, Interpretation.seen, form]
    refine (result_two computes.arith (values x (by simp)) _ _).trans ?_
    rw [word]
    rfl
  · have first : ((meaning places).seenAt (some .binary) s 1 x).word = (s.sees 0 x).word :=
      word_sees (values x (by simp)) rfl
    have second : ((meaning places).seenAt (some .binary) s 2 y).word = (s.sees 0 y).word :=
      word_sees (values y (by simp)) rfl
    rw [(meaning places).exec_of_single form silent rfl]
    refine congrArg (s.set d) ?_
    simp only [Interpretation.inputs, Interpretation.seen, form]
    refine (Words.result_three ..).trans ?_
    rw [first, second]
    rfl

theorem exec_unread {c : Command} {t : Reg} (scratch : t ∈ Reg.scratch) (unread : t ∉ c.uses)
    (agree : s.AgreeBut t u) :
    ((meaning places).exec c s).AgreeBut t ((meaning places).exec c u) ∧
      (t ∈ c.defs → ((meaning places).exec c s).regs t = ((meaning places).exec c u).regs t) ∧
      ∀ here, (meaning places).decide here c s = (meaning places).decide here c u :=
  (meaning places).exec_unread (fun _ _ => rfl) (fun _ _ _ _ => rfl) scratch unread agree

/-- The machine keeps to the table. -/
def semantics (places : String → Option Nat) : Semantics Word Memory where
  zero := 0
  exec := (meaning places).exec
  goes := (meaning places).decide
  result := resultOf
  frame _ kept := (meaning places).regs_exec_of_not_mem_clobbers kept
  unread := exec_unread
  computes := exec_computes
  commutes := resultOf_perm
  copies d r _ := (meaning places).exec_copy (fun _ _ => rfl) d r

end Machine

end MipsFlow
