import MipsFlow.Graph.Build
import MipsFlow.Proofs.Peephole

/-!
# The peephole rules that ask whether a register is dead

`computeArgument` lets a command write an argument register directly, and `foldOffset` moves an
increment into the offset of a load. Both lose a value that used to be in a register behind the
window, so both ask whether that register is still needed.

* `guarded_rule_exact`: the window and its replacement agree on memory and on every register that
  is not reported dead behind the window, unless the command reads the operand that it writes.

A command that accumulates into its first operand reads the new destination instead of the old one
when it is redirected. `Disturbs` says when this makes a difference.
-/

namespace MipsFlow

/-- The command reads its first operand. -/
def Command.readsFirst (c : Command) : Bool := c.readSites.any (·.index = 0)

/-- The command with another destination. -/
def Command.withFirst (c : Command) (a : Reg) : Command := { c with args := c.args.set 0 (.reg a) }

/-- Loading from a place is loading from a nearer place once the base is incremented. -/
structure Interpretation.AddsOffsets {V M : Type} (I : Interpretation V M) : Prop extends
    I.MovesData where
  offset : ∀ (increment load : Opcode) (x : V) (m n : Int64) (mem : M),
    increment = .addu ∨ increment = .addiu → load.has .load = true → load ≠ .la →
    I.result ⟨some load, [.unread, .place (.number m)
        (I.result ⟨some increment, [.unread, .value x, .literal n], [], mem⟩)], [], mem⟩ =
      I.result ⟨some load, [.unread, .place (.number (m + n)) x], [], mem⟩

/-- The integer machine adds offsets to bases. -/
theorem wordsAddOffsets (goes : Nat → Inputs Word Memory → Option Nat) :
    (Words.meaning goes).AddsOffsets := by
  refine ⟨wordsMoveData goes, ?_⟩
  intro increment load x m n mem adds loads _
  have sum : Word.ofImm (m + n) = Word.ofImm n + Word.ofImm m := by
    simp [Word.ofImm, Int64.toBitVec_add, BitVec.setWidth_add, BitVec.add_comm]
  rcases adds with rfl | rfl <;>
    cases load <;> simp [Opcode.has, Opcode.traits] at loads <;>
    simp [Words.meaning, Words.result, Word.binary?, Seen.word, Offset.word, sum,
      BitVec.add_assoc]

namespace Redundancy

variable {V M : Type} {I : Interpretation V M} {s : MachineState V M}
variable {v : View} {next : Nat} {p : Instr} {c : Command} {rest : List Instr} {w : Substitution}

/-- The rules that ask whether a register is dead. -/
def guarded : List Rule := [computeArgument, foldOffset]

/-- The two states agree on memory and on every register that is not dead before the rest of the
block. -/
def AgreeUnlessDead (I : Interpretation V M) (v : View) (rest : List Instr)
    (s t : MachineState V M) : Prop :=
  s.mem = t.mem ∧ ∀ r, v.dead rest r = false → I.read s r = I.read t r

/-- The command reads its first operand, and redirected to the destination of the copy behind it,
which is not dead before the rest of the block, it leaves another value there. -/
def Disturbs (I : Interpretation V M) (v : View) (s : MachineState V M) (c : Command)
    (behind rest : List Instr) : Prop :=
  c.readsFirst = true ∧ ∃ a t, behind.head?.bind Instr.command? = some (.copy a t) ∧
    v.dead rest a = false ∧ I.read (I.exec (c.withFirst a) s) a ≠ I.read (I.exec c s) t

/-! ## Redirecting a command -/

theorem form?_withFirst {a t : Reg} {args : List Operand} {form : Form}
    (known : c.form? = some form) (shape : c.args = .reg t :: args) (nonzero : t.isZero = false)
    (target : a.isZero = false) : (c.withFirst a).form? = some form := by
  have isTarget : ∀ r : Reg, r.isZero = false → (Operand.reg r).isReg Reg.zero = false := by
    intro r isNonzero
    simpa [Operand.isReg, Operand.reg?, Reg.isZero] using isNonzero
  have division : (c.withFirst a).isMultiplierDivision = c.isMultiplierDivision := by
    unfold Command.isMultiplierDivision Command.withFirst
    rw [shape]
    congr 1
    rcases args with _ | ⟨x, _ | ⟨y, _ | ⟨z, rest⟩⟩⟩
    · rfl
    · rfl
    · exact (isTarget a target).trans (isTarget t nonzero).symm
    · rfl
  rw [← known]
  unfold Command.form?
  rw [division]
  simp [Command.withFirst, Command.op?]

/-- A command that does not read its first operand computes the same wherever it writes. -/
theorem inputs_withFirst {a t : Reg} {args : List Operand} {form : Form}
    (known : c.form? = some form) (shape : c.args = .reg t :: args) (nonzero : t.isZero = false)
    (target : a.isZero = false) (unread : 0 ∉ form.uses) :
    I.inputs (c.withFirst a) s = I.inputs c s := by
  have sameForm := form?_withFirst known shape nonzero target
  have seen : I.seen (c.withFirst a) s = I.seen c s := by
    unfold Interpretation.seen
    rw [sameForm, known]
    simp [Command.withFirst, shape, Interpretation.seenAt, unread]
  unfold Interpretation.inputs
  rw [seen, sameForm, known]
  rfl

theorem readsFirst_eq_false {t : Reg} {args : List Operand} {form : Form}
    (known : c.form? = some form) (shape : c.args = .reg t :: args) :
    c.readsFirst = false ↔ 0 ∉ form.uses := by
  rw [← Bool.not_eq_true]
  refine not_congr ?_
  rw [Command.readsFirst, List.any_eq_true]
  constructor
  · rintro ⟨⟨i, r⟩, member, isFirst⟩
    obtain rfl : i = 0 := by simpa using isFirst
    obtain ⟨o, here, read⟩ := Command.mem_readSites.1 member
    simp only [shape, List.getElem?_cons_zero, Option.some.injEq] at here
    subst here
    simp only [Command.readAt?, known, Option.all_some, Option.ite_none_right_eq_some,
      List.contains_iff_mem] at read
    exact read.1
  · intro read
    refine ⟨⟨0, t⟩, Command.mem_readSites.2 ⟨.reg t, by simp [shape], ?_⟩, by simp⟩
    simp [Command.readAt?, known, read]

/-- What is known of a command that `computeArgument` redirects. -/
theorem redirected_form {t : Reg} {args : List Operand} (pure : c.isPure = true)
    (shape : c.args = .reg t :: args) (defs : c.defs = [t]) :
    ∃ form, c.form? = some form ∧ c.writesMemory = false ∧ c.clobbers = [t] ∧
      (0 ∉ form.uses → form.defs = [0]) := by
  obtain ⟨form, isForm, silent, clobbers⟩ := Command.form_of_isPure pure
  refine ⟨form, isForm, silent, clobbers.trans defs, fun unread => ?_⟩
  have target := defs
  simp only [Command.defs, isForm] at target
  rcases Command.form?_eq_some isForm with ⟨rfl, -⟩ | ⟨op, -, entry⟩
  · have both : [Reg.hi, Reg.lo] = [t] := target
    simp at both
  · rcases Family.form?_shape entry with ⟨none, implied⟩ | ⟨first, -⟩ | ⟨-, -, read⟩
    · rcases implied (by simp [shape]) with nothing | read
      · simp [none, nothing, Command.regsAt] at target
      · exact absurd read unread
    · exact first
    · exact absurd read unread

/-- The only registers that the redirected command may change are the two destinations. -/
theorem regs_exec_withFirst {a t r : Reg} {args : List Operand} {form : Form}
    (known : c.form? = some form) (silent : c.writesMemory = false)
    (shape : c.args = .reg t :: args) (changed : c.clobbers = [t]) (nonzero : t.isZero = false)
    (target : a.isZero = false) (other : r ≠ a) (kept : r ≠ t) :
    (I.exec (c.withFirst a) s).regs r = s.regs r := by
  refine I.regs_exec_of_not_mem_clobbers fun written => ?_
  have stays := Command.leavesCode_of_silent silent
  have sameForm := form?_withFirst known shape nonzero target
  have remains : (c.withFirst a).leavesCode = false := stays
  rw [Command.clobbers_eq_defs sameForm remains, Command.mem_defs] at written
  obtain ⟨form', known', named | implied⟩ := written
  · obtain rfl := Option.some.inj (sameForm.symm.trans known')
    obtain ⟨i, position, found⟩ := List.mem_filterMap.1 named
    obtain ⟨o, here, isReg⟩ := Option.bind_eq_some_iff.1 found
    cases i with
    | zero =>
      simp only [Command.withFirst, shape, List.set_cons_zero, List.getElem?_cons_zero,
        Option.some.injEq] at here
      subst here
      exact other (Option.some.inj isReg).symm
    | succ i =>
      have sameOperand : c.args[i + 1]? = some o := by
        rw [← here]
        simp [Command.withFirst]
      have before : r ∈ c.clobbers := by
        rw [Command.clobbers_eq_defs known stays, Command.mem_defs]
        exact ⟨form, known, Or.inl (List.mem_filterMap.2 ⟨i + 1, position, by
          rw [sameOperand]; exact isReg⟩)⟩
      rw [changed, List.mem_singleton] at before
      exact kept before
  · obtain rfl := Option.some.inj (sameForm.symm.trans known')
    have before : r ∈ c.clobbers := by
      rw [Command.clobbers_eq_defs known stays, Command.mem_defs]
      exact ⟨form, known, Or.inr implied⟩
    rw [changed, List.mem_singleton] at before
    exact kept before

/-- A redirected command that does not read its first operand leaves in the new destination what
it used to leave in the old one. -/
theorem read_exec_withFirst {a t : Reg} {args : List Operand} {form : Form}
    (known : c.form? = some form) (silent : c.writesMemory = false)
    (shape : c.args = .reg t :: args) (first : form.defs = [0]) (nonzero : t.isZero = false)
    (target : a.isZero = false) (unread : 0 ∉ form.uses) :
    I.read (I.exec (c.withFirst a) s) a = I.read (I.exec c s) t := by
  have sameForm := form?_withFirst known shape nonzero target
  have redirected : I.exec (c.withFirst a) s = s.set a (I.result (I.inputs c s)) := by
    rw [I.exec_of_single (r := a) sameForm silent
      (by simp [Command.regsAt, first, Command.withFirst, shape, Operand.reg?]),
      inputs_withFirst known shape nonzero target unread]
  have direct : I.exec c s = s.set t (I.result (I.inputs c s)) :=
    I.exec_of_single known silent (by simp [Command.regsAt, first, shape, Operand.reg?])
  rw [redirected, direct, I.read_set_self target, I.read_set_self nonzero]

/-! ## The two rules on a block -/

theorem nonzero_of_dead {others : List Instr} {r : Reg} (reserves : Reg.zero ∈ v.reserved)
    (dead : v.dead others r = true) : r.isZero = false := by
  rw [Bool.eq_false_iff]
  intro zero
  obtain rfl : r = Reg.zero := by simpa [Reg.isZero] using zero
  simp only [View.dead, Bool.and_eq_true, Bool.not_eq_true', Bool.eq_false_iff, ne_eq,
    FactSet.contains_iff] at dead
  exact dead.1 reserves

theorem nonzero_of_isArgument {a : Reg} (argument : a.isArgument = true) : a.isZero = false := by
  rw [Bool.eq_false_iff]
  intro zero
  obtain rfl : a = Reg.zero := by simpa [Reg.isZero] using zero
  exact absurd argument (by decide)

/-- A command that computes an argument is redirected from a register that is dead behind the copy
to the one that the copy writes. -/
theorem computeArgument_redirects (reserves : Reg.zero ∈ v.reserved)
    (applies : computeArgument v next p c rest = some w) :
    ∃ t args a q r others, c.args = .reg t :: args ∧ rest = q :: r :: others ∧
      q.command? = some (.copy a t) ∧ c.isPure = true ∧ c.defs = [t] ∧ a ≠ t ∧ a ∉ v.reserved ∧
      t.isZero = false ∧ a.isZero = false ∧ v.dead (r :: others) t = true ∧ w.count = 2 ∧
      w.repl = [p.withCommand (c.withFirst a)] := by
  obtain ⟨t, args, a, q, r, others, call, shape, isRest, copies, -, -, pure, defs, argument, other,
    free, dead, count, repl, -⟩ := computeArgument_eq_some applies
  refine ⟨t, args, a, q, r, others, shape, isRest, copies, pure, defs, other, free,
    nonzero_of_dead reserves dead, nonzero_of_isArgument argument, dead, count, ?_⟩
  rw [repl, Command.withFirst, shape]
  rfl

theorem computeArgument_window (laws : I.MovesData) (reserves : Reg.zero ∈ v.reserved)
    (command : p.command? = some c) (applies : computeArgument v next p c rest = some w) :
    AgreeUnlessDead I v ((p :: rest).drop w.count) (I.execAll ((p :: rest).take w.count) s)
        (I.execAll w.repl s) ↔
      ¬ Disturbs I v s c rest ((p :: rest).drop w.count) := by
  obtain ⟨t, args, a, q, r, others, shape, rfl, copies, pure, defs, other, -, nonzero, target, dead,
    count, isRepl⟩ := computeArgument_redirects reserves applies
  obtain ⟨form, known, silent, changed, single⟩ := redirected_form pure shape defs
  have behind : (p :: q :: r :: others).drop w.count = r :: others := by
    rw [count]
    rfl
  have old : I.execAll ((p :: q :: r :: others).take w.count) s =
      (I.exec c s).set a (I.read (I.exec c s) t) := by
    rw [count]
    simp [I.execInstr_of_command command, I.execInstr_of_command copies, I.exec_copy laws.copy]
  have new : I.execAll w.repl s = I.exec (c.withFirst a) s := by
    rw [isRepl]
    simp [I.execInstr_of_command (Instr.command?_withCommand p _)]
  have sameMem : (I.exec c s).mem = (I.exec (c.withFirst a) s).mem := by
    rw [I.mem_exec known silent,
      I.mem_exec (form?_withFirst known shape nonzero target) silent]
  rw [old, new, behind]
  constructor
  · rintro ⟨-, agree⟩ ⟨-, a', t', follows, live, differ⟩
    simp only [List.head?_cons, Option.bind_some, copies, Option.some.injEq,
      Command.copy_inj] at follows
    obtain ⟨rfl, rfl⟩ := follows
    refine differ ?_
    rw [← agree a live, I.read_set_self target]
  · intro calm
    refine ⟨sameMem, fun x live => ?_⟩
    by_cases isTarget : x = a
    · subst isTarget
      rw [I.read_set_self target]
      refine Classical.byContradiction fun differ => ?_
      cases reads : c.readsFirst with
      | true =>
        exact calm ⟨reads, x, t, by simpa using copies, live, fun same => differ same.symm⟩
      | false =>
        have unread := (readsFirst_eq_false known shape).1 reads
        exact differ
          (read_exec_withFirst known silent shape (single unread) nonzero target unread).symm
    · have notOld : x ≠ t := by
        rintro rfl
        rw [dead] at live
        contradiction
      rw [I.read_set_of_ne isTarget]
      refine I.read_congr ?_
      rw [regs_exec_withFirst known silent shape changed nonzero target isTarget notOld]
      exact I.regs_exec_of_not_mem_clobbers (by simpa [changed] using notOld)

/-- A load from memory writes its first operand only. -/
theorem readsMemory_form {d : Command} {dst : Operand} {offset : Offset} {base : Reg}
    (loads : d.readsMemory = true) (args : d.args = [dst, .mem offset base]) :
    ∃ load, d.op? = some load ∧ load.has .load = true ∧ load ≠ .la ∧ d.form? = some .define ∧
      d.writesMemory = false := by
  simp only [Command.readsMemory, Bool.and_eq_true, bne_iff_ne, ne_eq] at loads
  obtain ⟨⟨isLoad, notAddress⟩, -⟩ := loads
  obtain ⟨load, isOp, has⟩ := Command.has_iff.1 isLoad
  refine ⟨load, isOp, has, fun address => notAddress (by rw [isOp, address]),
    Command.form?_of_isLoad isLoad args, ?_⟩
  simp [Command.writesMemory, Command.silent_of_isLoad isLoad]

/-- What a load from memory does. -/
theorem exec_load {d : Command} {load : Opcode} {dst : Operand} {offset : Offset} {base : Reg}
    (isOp : d.op? = some load) (known : d.form? = some .define) (silent : d.writesMemory = false)
    (args : d.args = [dst, .mem offset base]) :
    I.exec d s = match dst with
      | .reg x =>
        s.set x (I.result ⟨some load, [.unread, .place offset (I.read s base)], [], s.mem⟩)
      | _ => s := by
  cases dst with
  | reg x =>
    simp only
    rw [I.exec_of_single known silent
      (by simp [Command.regsAt, Form.define, args, Operand.reg?] : _ = [x])]
    simp [Interpretation.inputs, isOp, Interpretation.seen, args, known, Interpretation.seenAt,
      Form.define]
  | imm _ | sym _ | mem _ _ =>
    refine I.exec_of_no_defs known silent ?_ rfl
    simp [Command.regsAt, Form.define, args, Operand.reg?]

/-- What an addition of a literal does. -/
theorem exec_increment {increment : Opcode} {a : Reg} {n : Int64} (isOp : c.op? = some increment)
    (adds : increment = .addu ∨ increment = .addiu) (args : c.args = [.reg a, .reg a, .imm n]) :
    c.form? = some .binary ∧ I.exec c s = s.set a
      (I.result ⟨some increment, [.unread, .value (I.read s a), .literal n], [], s.mem⟩) := by
  have family : increment.family = .arithmetic := by rcases adds with rfl | rfl <;> rfl
  have known : c.form? = some .binary := by
    rw [Command.form?_of_family isOp (by simp [family]), family, args]
    rfl
  have silent : c.writesMemory = false := by
    simp only [Command.writesMemory, Command.isStore, Command.leavesCode, Command.has_of_op? isOp]
    rcases adds with rfl | rfl <;> rfl
  refine ⟨known, ?_⟩
  rw [I.exec_of_single (r := a) known silent
    (by simp [Command.regsAt, Form.binary, args, Operand.reg?])]
  simp [Interpretation.inputs, isOp, Interpretation.seen, args, known, Interpretation.seenAt,
    Form.binary]

theorem foldOffset_window (laws : I.AddsOffsets) (reserves : Reg.zero ∈ v.reserved)
    (command : p.command? = some c) (applies : foldOffset v next p c rest = some w) :
    c.readsFirst = false ∧
      AgreeUnlessDead I v ((p :: rest).drop w.count) (I.execAll ((p :: rest).take w.count) s)
        (I.execAll w.repl s) := by
  obtain ⟨a, n, dst, m, q, others, d, args, adds, rfl, follows, loads, places, unneeded, count,
    repl, -⟩ := foldOffset_eq_some applies
  obtain ⟨increment, isAdd, isOp⟩ : ∃ increment, c.op? = some increment ∧
      (increment = .addu ∨ increment = .addiu) := by
    rcases adds with isOp | isOp
    · exact ⟨_, isOp, Or.inl rfl⟩
    · exact ⟨_, isOp, Or.inr rfl⟩
  obtain ⟨load, isLoad, hasLoad, notAddress, form, silent⟩ := readsMemory_form loads places
  obtain ⟨known, incremented⟩ := exec_increment (I := I) (s := s) isAdd isOp args
  refine ⟨(readsFirst_eq_false known args).2 (by decide), ?_⟩
  have old : I.execAll ((p :: q :: others).take w.count) s = I.exec d (I.exec c s) := by
    rw [count]
    simp [I.execInstr_of_command command, I.execInstr_of_command follows]
  have new : I.execAll w.repl s = I.exec { d with args := [dst, .mem (.number (m + n)) a] } s := by
    rw [repl]
    simp [I.execInstr_of_command (Instr.command?_withCommand q _)]
  have moved : Command.form? { d with args := [dst, .mem (.number (m + n)) a] } = some .define := by
    rw [← form]
    exact Command.form?_exchange_second places
  rw [old, new, exec_load isLoad form silent places,
    exec_load (d := { d with args := [dst, .mem (.number (m + n)) a] }) isLoad moved silent rfl,
    incremented]
  -- a register that is lost here is dead, so the two states need to agree on the others only
  have behind : (p :: q :: others).drop w.count = others := by
    rw [count]
    rfl
  have lost : dst ≠ .reg a → ∀ x, v.dead others x = false → x ≠ a := by
    rintro notTarget x live rfl
    rcases unneeded with target | dead
    · exact notTarget target
    · rw [dead] at live
      contradiction
  rw [behind]
  cases dst with
  | reg x =>
    by_cases target : x = a
    · subst target
      cases zero : x.isZero with
      | true => exact ⟨rfl, fun r _ => by simp only [MachineState.set_zero zero]⟩
      | false =>
        refine ⟨rfl, fun r _ => ?_⟩
        simp only [MachineState.set_set, MachineState.set_mem, I.read_set_self zero,
          laws.offset increment load _ m n _ isOp hasLoad notAddress]
    · have nonzero : a.isZero = false := by
        rcases unneeded with isTarget | dead
        · exact absurd (Operand.reg.inj isTarget) target
        · exact nonzero_of_dead reserves dead
      refine ⟨rfl, fun r live => ?_⟩
      have other : r ≠ a := lost (fun same => target (Operand.reg.inj same)) r live
      simp only [MachineState.set_mem, I.read_set_self nonzero,
        laws.offset increment load _ m n _ isOp hasLoad notAddress]
      by_cases here : r = x
      · subst here
        cases zero : r.isZero with
        | true => rw [I.read_zero zero, I.read_zero zero]
        | false => rw [I.read_set_self zero, I.read_set_self zero]
      · rw [I.read_set_of_ne here, I.read_set_of_ne other, I.read_set_of_ne here]
  | imm _ | sym _ | mem _ _ =>
    refine ⟨rfl, fun r live => ?_⟩
    exact I.read_set_of_ne (lost (by simp) r live)

/-- The rules that ask whether a register is dead are exact where it counts. Whatever the facts, run
from any state, a window and its replacement leave the same memory and the same value in every
register that is not dead behind the window, unless the command reads the operand that it writes
and leaves another value in the argument register than in its old destination. -/
theorem guarded_rule_exact (laws : I.AddsOffsets) {f : Facts} {b : Block} {annotated : Bool}
    {rule : Rule} {before : List Instr} (member : rule ∈ guarded)
    (reserves : Reg.zero ∈ f.reserved) (isCode : b.code = before ++ p :: rest)
    (command : p.command? = some c)
    (applies : rule (f.view annotated b) next p c rest = some w) (s : MachineState V M) :
    let old := I.execAll ((p :: rest).take w.count) s
    let new := I.execAll w.repl s
    (old.mem = new.mem ∧ ∀ r, f.deadAt b (before.length + w.count) r = false →
        I.read old r = I.read new r) ↔
      ¬ Disturbs I (f.view annotated b) s c rest (b.code.drop (before.length + w.count)) := by
  intro old new
  have behind : b.code.drop (before.length + w.count) = (p :: rest).drop w.count := by
    rw [isCode, List.drop_append, List.drop_of_length_le (by omega), List.nil_append]
    congr 1
    omega
  have dead : ∀ r, f.deadAt b (before.length + w.count) r =
      (f.view annotated b).dead ((p :: rest).drop w.count) r := by
    intro r
    unfold Facts.deadAt
    rw [behind]
    rfl
  simp only [dead, behind]
  simp only [guarded, List.mem_cons, List.not_mem_nil, or_false] at member
  rcases member with rfl | rfl
  · exact computeArgument_window laws.toMovesData reserves command applies
  · obtain ⟨unread, agree⟩ := foldOffset_window (s := s) laws reserves command applies
    refine iff_of_true agree ?_
    rintro ⟨reads, -⟩
    rw [unread] at reads
    contradiction

/-- The rules on `addu $8, $9, $10; move $4, $8; jal f`, with the facts of the program. -/
theorem guarded_rule_exact_argument :
    let p := Instr.ofCommand 1
      (.ofOpcode .addu [.reg (.general 8), .reg (.general 9), .reg (.general 10)])
    let q := Instr.ofCommand 2 (.copy (.general 4) (.general 8))
    let call := Instr.ofCommand 3 (.ofOpcode .jal [.sym "f"])
    let b : Block := { id := 0, code := [p, q, call], succ := [1], unresolved := true }
    let g := Graph.build [p, q, call, .ofCommand 4 (.ofOpcode .jr [.reg Reg.link])]
    let s : MachineState Word Memory := ⟨fun _ => 7, fun _ => 0⟩
    let I := Words.meaning fun _ _ => none
    g.block? 0 = some b ∧
      ∀ r, (Facts.analyze g Reg.alwaysReserved).deadAt b 2 r = false →
        I.read (I.execAll [p, q] s) r = I.read (I.execAll [p.withCommand (.ofOpcode .addu
          [.reg (.general 4), .reg (.general 9), .reg (.general 10)])] s) r := by
  intro p q call b g s I
  refine ⟨by decide +kernel, ?_⟩
  have applies : (computeArgument ((Facts.analyze g Reg.alwaysReserved).view false b) 5 p
      (.ofOpcode .addu [.reg (.general 8), .reg (.general 9), .reg (.general 10)])
      [q, call]) = some ⟨2, [p.withCommand (.ofOpcode .addu
        [.reg (.general 4), .reg (.general 9), .reg (.general 10)])],
        "argument forwarded: " ++ q.text, 5⟩ := by
    decide +kernel
  refine ((guarded_rule_exact (wordsAddOffsets fun _ _ => none) (by simp [guarded])
    (by decide +kernel) (show b.code = [] ++ p :: [q, call] from rfl) rfl applies s).2 ?_).2
  rintro ⟨reads, -⟩
  exact absurd reads (by decide)

/-- In `addu $8, $9; move $4, $8; jal f` the sum accumulates into `$8`. Redirected to `$4`, it adds
to what `$4` held, and `$4` is needed. -/
theorem computeArgument_disturbs :
    let p := Instr.ofCommand 1 (.ofOpcode .addu [.reg (.general 8), .reg (.general 9)])
    let q := Instr.ofCommand 2 (.copy (.general 4) (.general 8))
    let call := Instr.ofCommand 3 (.ofOpcode .jal [.sym "f"])
    let b : Block := { id := 0, code := [p, q, call], succ := [1], unresolved := true }
    let g := Graph.build [p, q, call, .ofCommand 4 (.ofOpcode .jr [.reg Reg.link])]
    let f := Facts.analyze g Reg.alwaysReserved
    let s : MachineState Word Memory := ⟨fun r => if r = .general 8 then 1 else 0, fun _ => 0⟩
    let I := Words.meaning fun _ _ => none
    g.block? 0 = some b ∧
      (computeArgument (f.view false b) 5 p
        (.ofOpcode .addu [.reg (.general 8), .reg (.general 9)]) [q, call]).map (·.repl) =
          some [p.withCommand (.ofOpcode .addu [.reg (.general 4), .reg (.general 9)])] ∧
      f.deadAt b 2 (.general 4) = false ∧
      I.read (I.execAll [p, q] s) (.general 4) = 1 ∧
      I.read (I.execAll [p.withCommand (.ofOpcode .addu [.reg (.general 4), .reg (.general 9)])] s)
        (.general 4) = 0 := by
  decide +kernel

end Redundancy

end MipsFlow
