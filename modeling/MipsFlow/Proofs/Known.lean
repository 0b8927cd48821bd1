import Mathlib.Data.List.Basic
import MipsFlow.Optimizer.Known
import MipsFlow.Proofs.Hardware

/-!
# What known values mean

`Known.Holds` says that the registers and words of memory that are known have the values that are
recorded for them. Every known command keeps it so, unless it stops the program: `Holds.after`.
What can be told about the result of a command is its result: `step_of_result?`.
-/

namespace MipsFlow

/-- A word written as a literal is that word. -/
theorem Word.ofImm_toImm (w : Word) : Word.ofImm w.toImm = w := by
  have extended : (Int64.ofInt w.toInt).toBitVec = w.signExtend 64 := rfl
  unfold Word.ofImm Word.toImm
  rw [extended]
  ext i inside
  simp [BitVec.getLsbD_signExtend, inside]
  omega

namespace Known

variable {M : Type} {H : Hardware M} {k : Known} {s t : MachineState Word M} {c : Command}
variable {r : Reg} {w : Word}

/-- The known registers and words of memory have the values recorded for them. -/
structure Holds (H : Hardware M) (k : Known) (s : MachineState Word M) : Prop where
  regs : ∀ r w, (r, w) ∈ k.regs → s.read 0 r = w
  cells : ∀ cell ∈ k.cells, H.load .lw (H.address s cell.offset cell.base) s.mem = cell.value

namespace Holds

theorem of_reg? (holds : k.Holds H s) (found : k.reg? r = some w) : s.read 0 r = w := by
  unfold reg? at found
  split at found
  · next zero =>
    cases found
    simp [MachineState.read, zero]
  · obtain ⟨front, back, present, -⟩ := List.lookup_eq_some_iff.1 found
    exact holds.regs r w (by simp [present])

theorem of_operand? (holds : k.Holds H s) {x : Operand} (found : k.operand? x = some w) :
    H.value s x = w := by
  cases x with
  | reg r => exact holds.of_reg? found
  | imm n => exact Option.some.inj found
  | mem _ _ => contradiction
  | sym _ => contradiction

theorem of_cell? (holds : k.Holds H s) {offset : Offset} {base : Reg}
    (found : k.cell? offset base = some w) :
    H.load .lw (H.address s offset base) s.mem = w := by
  obtain ⟨cell, isCell, rfl⟩ := Option.map_eq_some_iff.1 found
  have matching := List.find?_some isCell
  simp only [Bool.and_eq_true, decide_eq_true_eq] at matching
  obtain ⟨rfl, rfl⟩ := matching
  exact holds.cells cell (List.mem_of_find?_eq_some isCell)

end Holds

/-! ## Results -/

theorem unary_of_fold {op : Opcode} {x : Word} (folds : Word.unary? op x = some w) :
    Alu.unary? op x = some (.word w) := by
  rw [Alu.unary?_eq] at folds
  obtain ⟨calculation, found, isWord⟩ := Option.bind_eq_some_iff.1 folds
  cases calculation <;> cases isWord
  exact found

theorem binary_of_fold {op : Opcode} {x y : Word} (folds : Word.binary? op x y = some w) :
    Alu.binary? op x y = some (.word w) := by
  rw [Alu.binary?_eq] at folds
  obtain ⟨calculation, found, isWord⟩ := Option.bind_eq_some_iff.1 folds
  cases calculation <;> cases isWord
  exact found

/-- What can be told about the result of a command is what it writes to its first operand. -/
theorem step_of_result? (found : k.result? c = some w) :
    ∃ d rest, c.args = .reg d :: rest ∧
      ∀ {M : Type} (H : Hardware M) (s : MachineState Word M), k.Holds H s →
        H.step c s = .ok (s.set d w) := by
  unfold result? at found
  split at found
  · contradiction
  split at found
  case h_1 isOp args =>
    obtain rfl := Command.eq_ofOpcode isOp args
    refine ⟨_, _, rfl, fun H s holds => ?_⟩
    rw [← holds.of_operand? found]
    rfl
  case h_2 isOp args =>
    obtain rfl := Command.eq_ofOpcode isOp args
    obtain rfl := Option.some.inj found
    exact ⟨_, _, rfl, fun H s holds => rfl⟩
  case h_3 isOp args =>
    obtain rfl := Command.eq_ofOpcode isOp args
    refine ⟨_, _, rfl, fun H s holds => ?_⟩
    rw [← holds.of_reg? found]
    rfl
  case h_4 isOp args | h_5 isOp args =>
    obtain rfl := Command.eq_ofOpcode isOp args
    refine ⟨_, _, rfl, fun H s holds => ?_⟩
    rw [← holds.of_reg? found]
    rfl
  case h_6 isOp args =>
    obtain rfl := Command.eq_ofOpcode isOp args
    refine ⟨_, _, rfl, fun H s holds => ?_⟩
    rw [← holds.of_cell? found]
    rfl
  case h_7 op d o _ _ _ _ _ _ isOp args =>
    obtain ⟨x, isOperand, folds⟩ := Option.bind_eq_some_iff.1 found
    refine ⟨_, _, args, fun H s holds => Hardware.step_unary isOp args ?_ ?_⟩
    · rintro offset base rfl
      contradiction
    · rw [holds.of_operand? isOperand]
      exact unary_of_fold folds
  case h_8 isOp args =>
    split at found
    · contradiction
    · next plain =>
      obtain ⟨x, isFirst, second⟩ := Option.bind_eq_some_iff.1 found
      obtain ⟨y, isSecond, folds⟩ := Option.bind_eq_some_iff.1 second
      refine ⟨_, _, args, fun H s holds =>
        Hardware.step_binary isOp args (by simpa using plain) ?_⟩
      rw [holds.of_operand? isFirst, holds.of_operand? isSecond]
      exact binary_of_fold folds
  case h_9 => contradiction

/-! ## Following a command -/

namespace Holds

theorem setReg (holds : k.Holds H s) (held : r.isZero = false → s.read 0 r = w) :
    (k.setReg r w).Holds H s := by
  unfold Known.setReg
  split
  · exact holds
  · next free =>
    refine ⟨fun q x member => ?_, holds.cells⟩
    rcases List.mem_cons.1 member with new | old
    · cases new
      simp only [Bool.or_eq_true, not_or, Bool.not_eq_true] at free
      exact held free.1
    · exact holds.regs q x old

/-- What is known about memory after a command is right, where the command does not write the
bases. -/
theorem cells_afterStore (holds : k.Holds H s) (known : c.isForeign = false)
    (steps : H.step c s = .ok t) {cell : Cell} (member : cell ∈ (k.afterStore c).cells) :
    H.load .lw (H.address s cell.offset cell.base) t.mem = cell.value := by
  unfold afterStore at member
  rw [known, Bool.false_or] at member
  split at member
  · simp [forgetMemory] at member
  next stays =>
  split at member
  · split at member
    case h_1 isOp args =>
      -- the word that was stored last
      obtain ⟨w, found, rfl⟩ := Option.map_eq_some_iff.1 (Option.mem_toList.1 member)
      rw [Hardware.step_store isOp args, Except.ok.injEq] at steps
      rw [← steps, ← holds.of_operand? found]
      exact H.load_store ..
    case h_2 => simp [forgetMemory] at member
  · next keeps =>
    rw [Hardware.mem_step steps (by simpa using keeps) (by simpa using stays)]
    exact holds.cells cell member

theorem regs_afterStore : (k.afterStore c).regs = k.regs := by
  unfold afterStore
  split
  · rfl
  · split
    · split <;> rfl
    · rfl

/-- What is known of registers that keep their values, and of memory, is still known. -/
theorem forget_of_frame (holds : k.Holds H s) (kept : ∀ r, r ∉ c.clobbers → t.regs r = s.regs r)
    (cells : ∀ cell ∈ (k.afterStore c).cells,
      H.load .lw (H.address s cell.offset cell.base) t.mem = cell.value) :
    ((k.afterStore c).forget c.clobbers).Holds H t := by
  have reads : ∀ {r}, r ∉ c.clobbers → t.read 0 r = s.read 0 r := by
    intro r unwritten
    rw [MachineState.read, MachineState.read, kept r unwritten]
  refine ⟨fun r w member => ?_, fun cell member => ?_⟩
  · obtain ⟨present, unwritten⟩ := List.mem_filter.1 member
    rw [regs_afterStore] at present
    rw [reads (by simpa using unwritten)]
    exact holds.regs r w present
  · obtain ⟨present, unwritten⟩ := List.mem_filter.1 member
    have sameAddress : H.address t cell.offset cell.base = H.address s cell.offset cell.base := by
      rw [Hardware.address, Hardware.address, reads (by simpa using unwritten)]
    rw [sameAddress]
    exact cells cell present

/-- After a command, what it does not change is still known, and the word that it stores. -/
theorem forget (holds : k.Holds H s) (known : c.isForeign = false) (steps : H.step c s = .ok t) :
    ((k.afterStore c).forget c.clobbers).Holds H t := by
  obtain ⟨form, isForm⟩ := Command.isForeign_eq_false.1 known
  exact holds.forget_of_frame (fun _ => Hardware.regs_step isForm steps)
    fun _ => holds.cells_afterStore known steps

end Holds

/-- The optimizer sees the operands of the multiplier. -/
theorem multiplierOperands_eq (known : c.isForeign = false) :
    multiplierOperands c = c.multiplies?.map fun (_, x, y) => [x, y] := by
  obtain ⟨form, isForm⟩ := Command.isForeign_eq_false.1 known
  cases isOp : c.op? with
  | none => simp [multiplierOperands, Command.multiplies?, Command.isMultiplierDivision, isOp]
  | some op =>
    by_cases product : op = .mult ∨ op = .multu
    · have two : c.args.length = 2 := by
        have other : op ≠ .div ∧ op ≠ .divu := by rcases product with rfl | rfl <;> decide
        have entry : op.family.form? c.args.length = some form :=
          (Command.form?_of_op isOp (Command.isMultiplierDivision_eq_false isOp other)).symm.trans
            isForm
        have family : op.family = .multiply := by rcases product with rfl | rfl <;> rfl
        rw [family] at entry
        unfold Family.form? at entry
        split at entry <;> simp_all
      obtain ⟨x, y, args⟩ := List.length_eq_two.1 two
      rcases product with rfl | rfl <;>
        simp [multiplierOperands, Command.multiplies?, isOp, args]
    · simp only [not_or] at product
      rcases args : c.args with _ | ⟨x, _ | ⟨y, _ | ⟨z, _ | ⟨more, rest⟩⟩⟩⟩
      case cons.cons.nil | cons.cons.cons.nil =>
        cases division : c.isMultiplierDivision <;>
          simp [multiplierOperands, Command.multiplies?, isOp, args, product, division]
      -- no division into the multiplier has another number of operands
      all_goals
        simp [multiplierOperands, Command.multiplies?, Command.isMultiplierDivision, isOp, args,
          product]

/-- What a command leaves in the multiplier can be told without a fault, and is right. -/
theorem multiplierResult_ok (k : Known) (known : c.isForeign = false) :
    ∃ pair, k.multiplierResult c = .ok pair ∧ ∀ hi lo, pair = some (hi, lo) →
      ∀ {M : Type} (H : Hardware M) (s t : MachineState Word M), k.Holds H s →
        H.step c s = .ok t → t.read 0 .hi = hi ∧ t.read 0 .lo = lo := by
  cases multiplies : c.multiplies? with
  | none =>
    refine ⟨none, ?_, by simp⟩
    simp [multiplierResult, multiplierOperands_eq known, multiplies]
  | some operation =>
    obtain ⟨op, x, y⟩ := operation
    have isOp := (Hardware.op_of_multiplies? multiplies).1
    cases first : k.operand? x with
    | none =>
      refine ⟨none, ?_, by simp⟩
      simp [multiplierResult, multiplierOperands_eq known, multiplies, isOp, first]
    | some a =>
      refine ⟨(k.operand? y).bind (Word.multiplier? op a), ?_,
        fun hi lo found M H s t holds steps => ?_⟩
      · simp [multiplierResult, multiplierOperands_eq known, multiplies, isOp, first]
      · obtain ⟨b, second, result⟩ := Option.bind_eq_some_iff.1 found
        rw [Alu.multiplier?_eq] at result
        rw [Hardware.step_multiplies multiplies, holds.of_operand? first, holds.of_operand? second,
          result, Except.ok.injEq] at steps
        subst steps
        exact ⟨rfl, rfl⟩

/-- Following a known command never faults. -/
theorem exists_after (k : Known) (known : c.isForeign = false) : ∃ k', k.after c = .ok k' := by
  obtain ⟨pair, isPair, -⟩ := k.multiplierResult_ok known
  unfold after
  rw [isPair]
  exact ⟨_, rfl⟩

/-- What is known after a known command is right, unless it stops the program. -/
theorem Holds.after {k' : Known} (holds : k.Holds H s) (known : c.isForeign = false)
    (isAfter : k.after c = .ok k') (steps : H.step c s = .ok t) : k'.Holds H t := by
  obtain ⟨pair, isPair, products⟩ := k.multiplierResult_ok known
  have forgets := holds.forget known steps
  unfold Known.after at isAfter
  rw [isPair] at isAfter
  obtain rfl := Except.ok.inj isAfter
  generalize (k.afterStore c).forget c.clobbers = forgotten at forgets
  have written : ∀ {w dst rest}, k.result? c = some w → c.args = .reg dst :: rest →
      (forgotten.setReg dst w).Holds H t := by
    intro w dst rest found args
    obtain ⟨d, rest', args', result⟩ := step_of_result? found
    cases args.symm.trans args'
    rw [result H s holds, Except.ok.injEq] at steps
    refine forgets.setReg fun nonzero => ?_
    rw [← steps, MachineState.read_set_self nonzero]
  cases pair with
  | none =>
    dsimp only
    split
    · next found args => exact written found args
    · exact forgets
  | some values =>
    obtain ⟨high, low⟩ := products values.1 values.2 rfl H s t holds steps
    refine setReg (setReg ?_ fun _ => high) fun _ => low
    split
    · next found args => exact written found args
    · exact forgets

/-- A command that stops the program has no known result. So what is known after it is right in
every state that differs from the one before it only where the command may write. -/
theorem Holds.after_stop {k' : Known} {stop : Trap × MachineState Word M} (holds : k.Holds H s)
    (known : c.isForeign = false) (isAfter : k.after c = .ok k')
    (stops : H.step c s = .error stop) (kept : ∀ r, r ∉ c.clobbers → t.regs r = s.regs r)
    (mem : t.mem = s.mem) : k'.Holds H t := by
  have unmultiplied : c.multiplies? = none := by
    rw [Option.eq_none_iff_forall_ne_some]
    rintro ⟨op, x, y⟩ multiplies
    rw [Hardware.step_multiplies multiplies] at stops
    contradiction
  have pair : k.multiplierResult c = .ok none := by
    simp [multiplierResult, multiplierOperands_eq known, unmultiplied]
  have unknown : k.result? c = none := by
    rw [Option.eq_none_iff_forall_ne_some]
    intro w found
    obtain ⟨d, rest, -, result⟩ := step_of_result? found
    rw [result H s holds] at stops
    contradiction
  have forgets : ((k.afterStore c).forget c.clobbers).Holds H t := by
    refine holds.forget_of_frame kept fun cell member => ?_
    unfold afterStore at member
    rw [known, Bool.false_or, mem] at *
    split at member
    · simp [forgetMemory] at member
    · split at member
      · split at member
        case h_1 isOp args =>
          rw [Hardware.step_store isOp args] at stops
          contradiction
        case h_2 => simp [forgetMemory] at member
      · exact holds.cells cell member
  unfold Known.after at isAfter
  rw [pair, unknown] at isAfter
  obtain rfl := Except.ok.inj isAfter
  exact forgets

end Known

end MipsFlow
