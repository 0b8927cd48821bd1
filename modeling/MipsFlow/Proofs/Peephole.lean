import MipsFlow.Optimizer.Redundancy
import MipsFlow.Proofs.Execution
import MipsFlow.Proofs.Notes
import MipsFlow.Proofs.Words

/-!
# The peephole rules

Redundancy elimination exchanges short windows of a block by rules. A rule that has applied says
what the window was and what has come in its place; for each rule this is inverted once
(`dropSelfCopy_eq_some` and those behind it), and what follows cites these lemmas.

Five of the seven rules consult no facts. That they are right takes commands that move data as they
should (`Interpretation.MovesData`), whatever the other commands compute.

* `factFree_rule_exact`: one of the five leaves the state at the end of the block as it was, unless
  it drops the second of two copies to and from the zero register (`LosesZero`).
* `dropCopyBack_loses_zero`: there the state does change.
* `folded_form`, `count_le_length` and `content_edited`: the shape of the windows, for all rules.
-/

namespace MipsFlow

namespace Redundancy

variable {v : View} {next : Nat} {p : Instr} {c : Command} {rest : List Instr} {w : Substitution}

/-! ## What each rule matches, and what it puts there -/

theorem dropSelfCopy_eq_some (applies : dropSelfCopy v next p c rest = some w) :
    ∃ a, c = .copy a a ∧ w.count = 1 ∧ w.repl = [] ∧ w.nextId = next := by
  unfold dropSelfCopy at applies
  split at applies
  · next a b copies =>
    split at applies
    · next same =>
      cases applies
      subst same
      exact ⟨a, Command.copy?_eq_some.1 copies, rfl, rfl, rfl⟩
    · contradiction
  · contradiction

theorem readThroughCopy_eq_some (applies : readThroughCopy v next p c rest = some w) :
    ∃ a b q others d, c = .copy a b ∧ rest = q :: others ∧ q.command? = some d ∧
      d.isForeign = false ∧ d.isJump = false ∧ d.args[0]? = some (.reg a) ∧
      d.args[1]? = some (.reg a) ∧ a ∈ d.defs ∧ d.readSites.filter (·.reg = a) = [⟨1, a⟩] ∧
      w.count = 2 ∧ w.repl = [q.withCommand { d with args := d.args.set 1 (.reg b) }] ∧
      w.nextId = next := by
  unfold readThroughCopy at applies
  split at applies
  · next a b q others copies =>
    split at applies
    · next d command =>
      split at applies
      · next guard =>
        cases applies
        simp only [Bool.and_eq_true, Bool.not_eq_true', decide_eq_true_eq,
          List.contains_iff_mem] at guard
        obtain ⟨⟨⟨⟨⟨known, stays⟩, first⟩, second⟩, written⟩, sites⟩ := guard
        exact ⟨a, b, q, others, d, Command.copy?_eq_some.1 copies, rfl, command, known, stays,
          first, second, written, sites, rfl, rfl, rfl⟩
      · contradiction
    · contradiction
  · contradiction

theorem dropCopyBack_eq_some (applies : dropCopyBack v next p c rest = some w) :
    ∃ a b q others, c = .copy a b ∧ rest = q :: others ∧ q.command? = some (.copy b a) ∧
      w.count = 2 ∧ w.repl = [p] ∧ w.nextId = next := by
  unfold dropCopyBack at applies
  split at applies
  · next a b q others copies =>
    split at applies
    · next back =>
      cases applies
      obtain ⟨d, command, returns⟩ := Option.bind_eq_some_iff.1 back
      rw [Command.copy?_eq_some.1 returns] at command
      exact ⟨a, b, q, others, Command.copy?_eq_some.1 copies, rfl, command, rfl, rfl, rfl⟩
    · contradiction
  · contradiction

theorem dropReload_eq_some (applies : dropReload v next p c rest = some w) :
    ∃ store load value offset base q others d, c.op? = some store ∧
      matchingLoad? store = some load ∧ c.args = [value, .mem offset base] ∧ rest = q :: others ∧
      q.command? = some d ∧ d.op? = some load ∧ d.args = c.args ∧ w.count = 2 ∧ w.repl = [p] ∧
      w.nextId = next := by
  unfold dropReload at applies
  split at applies
  · next load value offset base q others undoes args =>
    obtain ⟨store, isStore, matching⟩ := Option.bind_eq_some_iff.1 undoes
    split at applies
    · next d command =>
      split at applies
      · next guard =>
        cases applies
        simp only [Bool.and_eq_true, decide_eq_true_eq] at guard
        exact ⟨store, load, value, offset, base, q, others, d, isStore, matching, args, rfl,
          command, guard.1, guard.2, rfl, rfl, rfl⟩
      · contradiction
    · contradiction
  · contradiction

theorem simplifyShift_eq_some (applies : simplifyShift v next p c rest = some w) :
    ∃ a b, c.isShift = true ∧ c.args = [.reg a, .reg b, .imm 0] ∧ a.isZero = false ∧
      w.count = 1 ∧ ((a = b ∧ w.repl = [] ∧ w.nextId = next) ∨
        (a ≠ b ∧ w.repl = [.ofCommand next (.copy a b)] ∧ w.nextId = next + 1)) := by
  unfold simplifyShift at applies
  split at applies
  · next a b n shifts args =>
    split at applies
    · contradiction
    · next guard =>
      simp only [Bool.or_eq_true, decide_eq_true_eq, not_or, Decidable.not_not,
        Bool.not_eq_true] at guard
      obtain ⟨rfl, nonzero⟩ := guard
      split at applies
      · next same =>
        cases applies
        exact ⟨a, b, shifts, args, nonzero, rfl, Or.inl ⟨same, rfl, rfl⟩⟩
      · next other =>
        cases applies
        exact ⟨a, b, shifts, args, nonzero, rfl, Or.inr ⟨other, rfl, rfl⟩⟩
  · contradiction

theorem computeArgument_eq_some (applies : computeArgument v next p c rest = some w) :
    ∃ t args a q r others call, c.args = .reg t :: args ∧ rest = q :: r :: others ∧
      q.command? = some (.copy a t) ∧ r.command? = some call ∧ call.isCall = true ∧
      c.isPure = true ∧ c.defs = [t] ∧ a.isArgument = true ∧ a ≠ t ∧ a ∉ v.reserved ∧
      v.dead (r :: others) t = true ∧ w.count = 2 ∧
      w.repl = [p.withCommand { c with args := .reg a :: args }] ∧ w.nextId = next := by
  unfold computeArgument at applies
  split at applies
  · next t args q r others shape =>
    split at applies
    · next a s call copies calls =>
      split at applies
      · next guard =>
        cases applies
        simp only [Bool.and_eq_true, decide_eq_true_eq, Bool.not_eq_true', Bool.eq_false_iff,
          ne_eq, FactSet.contains_iff] at guard
        obtain ⟨⟨⟨⟨⟨⟨⟨pure, defs⟩, rfl⟩, isCall⟩, argument⟩, other⟩, free⟩, dead⟩ := guard
        obtain ⟨d, command, isCopy⟩ := Option.bind_eq_some_iff.1 copies
        rw [Command.copy?_eq_some.1 isCopy] at command
        exact ⟨_, args, a, q, r, others, call, shape, rfl, command, calls, isCall, pure, defs,
          argument, other, free, dead, rfl, rfl, rfl⟩
      · contradiction
    · contradiction
  · contradiction

theorem foldOffset_eq_some (applies : foldOffset v next p c rest = some w) :
    ∃ a n dst m q others d, c.args = [.reg a, .reg a, .imm n] ∧
      (c.op? = some .addu ∨ c.op? = some .addiu) ∧ rest = q :: others ∧ q.command? = some d ∧
      d.readsMemory = true ∧ d.args = [dst, .mem (.number m) a] ∧
      (dst = .reg a ∨ v.dead others a = true) ∧ w.count = 2 ∧
      w.repl = [q.withCommand { d with args := [dst, .mem (.number (m + n)) a] }] ∧
      w.nextId = next ∧ fitsSigned16 (m + n).toInt = true := by
  unfold foldOffset at applies
  split at applies
  · next a b n q others shape =>
    split at applies
    · next d command =>
      split at applies
      · next dst m base places =>
        split at applies
        · next guard =>
          cases applies
          simp only [Bool.and_eq_true, Bool.or_eq_true, decide_eq_true_eq, Operand.isReg] at guard
          obtain ⟨⟨⟨⟨⟨adds, rfl⟩, loads⟩, rfl⟩, fits⟩, unneeded⟩ := guard
          refine ⟨_, n, dst, m, q, others, d, shape, adds, rfl, command, loads, places, ?_, rfl,
            rfl, rfl, fits⟩
          refine unneeded.imp_left fun target => ?_
          cases dst <;> simp_all [Operand.reg?]
        · contradiction
      · contradiction
    · contradiction
  · contradiction

end Redundancy

/-- The commands that only move data do so: a copy, a shift by zero, and a load right behind the
store that it undoes. -/
structure Interpretation.MovesData {V M : Type} (I : Interpretation V M) : Prop where
  copy : I.Copies
  shift : ∀ (op : Opcode) (x : V) (mem : M), op.has .shift = true →
    I.result ⟨some op, [.unread, .value x, .literal 0], [], mem⟩ = x
  reload : ∀ (store load : Opcode) (x : V) (offset : Offset) (base : V) (mem : M),
    Redundancy.matchingLoad? store = some load →
    I.result ⟨some load, [.unread, .place offset base], [],
      I.memory ⟨some store, [.value x, .place offset base], [], mem⟩⟩ = x

/-- The integer machine moves data. -/
theorem wordsMoveData (goes : Nat → Inputs Word Memory → Option Nat) :
    (Words.meaning goes).MovesData := by
  constructor
  · intro x mem
    rfl
  · intro op x mem shifts
    cases op <;> simp [Opcode.has, Opcode.traits] at shifts <;>
      simp [Words.meaning, Words.result, Word.binary?, Seen.word, Word.ofImm]
  · intro store load x offset base mem undoes
    cases store <;> simp [Redundancy.matchingLoad?] at undoes <;> subst undoes <;>
      simp [Words.meaning, Words.result, Words.memory, Seen.word]

namespace Redundancy

variable {V M : Type} {I : Interpretation V M} {s : MachineState V M}

/-! ## Windows that need no facts -/

/-- The commands that `readThroughCopy` folds a copy into write their first operand, and read it
only through the second. -/
theorem folded_form {d : Command} {a : Reg} (first : d.args[0]? = some (.reg a))
    (second : d.args[1]? = some (.reg a)) (written : a ∈ d.defs)
    (sites : d.readSites.filter (·.reg = a) = [⟨1, a⟩]) :
    ∃ form, d.form? = some form ∧ form.defs = [0] ∧ form.impliedUses = [] ∧ 1 ∈ form.uses := by
  have siteOf : ∀ i o, d.args[i]? = some o → Command.readAt? d.form? i o = some a → i = 1 := by
    intro i o here read
    have member : (⟨i, a⟩ : ReadSite) ∈ d.readSites.filter (·.reg = a) :=
      List.mem_filter.2 ⟨Command.mem_readSites.2 ⟨o, here, read⟩, by simp⟩
    rw [sites, List.mem_singleton, ReadSite.mk.injEq] at member
    exact member.1
  obtain ⟨form, isForm, target⟩ := Command.mem_defs.1 written
  have unread : 0 ∉ form.uses := fun read => by
    have := siteOf 0 _ first (by simp [Command.readAt?, isForm, read])
    omega
  have several : 2 ≤ d.args.length := by
    have := (List.getElem?_eq_some_iff.1 second).1
    omega
  have read : 1 ∈ form.uses := by
    have member : (⟨1, a⟩ : ReadSite) ∈ d.readSites := by
      have : (⟨1, a⟩ : ReadSite) ∈ d.readSites.filter (·.reg = a) := by rw [sites]; simp
      exact (List.mem_filter.1 this).1
    obtain ⟨o, here, isRead⟩ := Command.mem_readSites.1 member
    rw [second] at here
    cases here
    simpa [Command.readAt?, isForm] using isRead
  rcases Command.form?_eq_some isForm with ⟨rfl, division, three⟩ | ⟨op, -, entry⟩
  · -- a division into the multiplier has the zero register first, and writes only `hi` and `lo`
    have zero : a = Reg.zero := by
      simp only [Command.isMultiplierDivision, Bool.and_eq_true] at division
      obtain ⟨-, shape⟩ := division
      split at shape
      · next isArgs => simp [isArgs] at three
      · next isArgs =>
        simp only [isArgs, List.getElem?_cons_zero, Option.some.injEq] at first
        simpa [first, Operand.isReg, Operand.reg?] using shape
      · contradiction
    subst zero
    rcases target with target | target
    · simp [Command.regsAt, Form.multiplierAfterZero] at target
    · simp [Form.multiplierAfterZero, Reg.zero] at target
  · rcases Family.form?_shape entry with ⟨defs, implied⟩ | ⟨defs, -, named⟩ | ⟨-, -, read⟩
    · rcases implied (by omega) with none | read
      · rcases target with target | target
        · simp [Command.regsAt, defs] at target
        · simp [none] at target
      · exact absurd read unread
    · exact ⟨form, isForm, defs, named several, ‹_›⟩
    · exact absurd read unread

/-- Exchanging the second operand of a command that writes only its first one: the new command
writes the same register. -/
theorem exec_exchanged {d : Command} {a b : Reg} {form : Form} (known : d.form? = some form)
    (defs : form.defs = [0]) (stays : d.isJump = false) (first : d.args[0]? = some (.reg a)) :
    I.exec { d with args := d.args.set 1 (.reg b) } s =
      s.set a (I.result (I.inputs { d with args := d.args.set 1 (.reg b) } s)) := by
  have writes : form.defs ≠ [] := by simp [defs]
  obtain ⟨keeps, remains⟩ := Command.silent_of_defs known writes stays
  refine I.exec_of_single ((Command.form?_set_args 0 _).trans known) ?_ ?_
  · have sameOp : Command.writesMemory { d with args := d.args.set 1 (.reg b) } =
        d.writesMemory := rfl
    rw [sameOp, Command.writesMemory, keeps, remains]
    rfl
  · simp [Command.regsAt, defs, first, Operand.reg?]

/-- The copy and the command behind it see what the folded command sees. -/
theorem inputs_folded (laws : I.MovesData) {d : Command} {a b : Reg} {form : Form}
    (known : d.form? = some form) (named : form.impliedUses = []) (nonzero : a.isZero = false)
    (second : d.args[1]? = some (.reg a)) (read : 1 ∈ form.uses)
    (sites : d.readSites.filter (·.reg = a) = [⟨1, a⟩]) :
    I.inputs d (I.exec (.copy a b) s) =
      I.inputs { d with args := d.args.set 1 (.reg b) } s := by
  have sameForm : Command.form? { d with args := d.args.set 1 (.reg b) } = some form :=
    (Command.form?_set_args 0 _).trans known
  have sameOp : Command.op? { d with args := d.args.set 1 (.reg b) } = d.op? := rfl
  have seen : I.seen d (I.exec (.copy a b) s) =
      I.seen { d with args := d.args.set 1 (.reg b) } s := by
    unfold Interpretation.seen
    rw [sameForm, known]
    refine List.ext_getElem? fun i => ?_
    simp only [List.getElem?_map, List.getElem?_zipIdx, Nat.zero_add, List.getElem?_set]
    by_cases here : i = 1
    · subst here
      have inside : 1 < d.args.length := (List.getElem?_eq_some_iff.1 second).1
      rw [second, if_pos rfl, if_pos inside]
      simp [Interpretation.seenAt, read, I.exec_copy laws.copy, I.read_set_self nonzero]
    · rw [if_neg (by omega)]
      cases operand : d.args[i]? with
      | none => rfl
      | some o =>
        simp only [Option.map_some, Option.some.injEq]
        refine I.seenAt_congr fun r isRead => ?_
        refine I.read_exec_of_not_mem_clobbers ?_
        rw [Command.clobbers_copy, List.mem_singleton]
        rintro rfl
        have member : (⟨i, r⟩ : ReadSite) ∈ d.readSites.filter (·.reg = r) :=
          List.mem_filter.2 ⟨Command.mem_readSites.2 ⟨o, operand, by rw [known]; exact isRead⟩,
            by simp⟩
        rw [sites, List.mem_singleton, ReadSite.mk.injEq] at member
        exact here member.1
  unfold Interpretation.inputs
  rw [seen, sameForm, sameOp, known, I.exec_copy laws.copy]
  simp [named]

/-- Folding a copy into the command behind it changes nothing. -/
theorem exec_folded (laws : I.MovesData) {d : Command} {a b : Reg}
    (stays : d.isJump = false) (first : d.args[0]? = some (.reg a))
    (second : d.args[1]? = some (.reg a)) (written : a ∈ d.defs)
    (sites : d.readSites.filter (·.reg = a) = [⟨1, a⟩]) :
    I.exec { d with args := d.args.set 1 (.reg b) } s = I.exec d (I.exec (.copy a b) s) := by
  obtain ⟨form, isForm, defs, named, read⟩ := folded_form first second written sites
  rw [exec_exchanged isForm defs stays first]
  have direct : ∀ t, I.exec d t = t.set a (I.result (I.inputs d t)) := by
    intro t
    have exchanged := exec_exchanged (I := I) (s := t) (b := a) isForm defs stays first
    obtain ⟨inside, isSecond⟩ := List.getElem?_eq_some_iff.1 second
    rwa [← isSecond, List.set_getElem_self inside] at exchanged
  rw [direct]
  cases zero : a.isZero with
  | true =>
    rw [MachineState.set_zero zero, MachineState.set_zero zero, I.exec_copy laws.copy,
      MachineState.set_zero zero]
  | false =>
    rw [inputs_folded laws isForm named zero second read sites, I.exec_copy laws.copy,
      MachineState.set_set]

/-- The second of two opposite copies does nothing, except that it clears its register if the
first one goes to the zero register. -/
theorem exec_copyBack (laws : I.MovesData) (a b : Reg) :
    I.exec (.copy b a) (I.exec (.copy a b) s) =
      if a.isZero then s.set b I.zero else I.exec (.copy a b) s := by
  rw [I.exec_copy laws.copy, I.exec_copy laws.copy]
  cases zero : a.isZero with
  | true => rw [MachineState.set_zero zero, I.read_zero zero]; rfl
  | false =>
    have same : I.read (s.set a (I.read s b)) b = I.read (s.set a (I.read s b)) a := by
      rw [I.read_set_self zero]
      by_cases coincide : b = a
      · rw [coincide, I.read_set_self zero]
      · exact I.read_set_of_ne coincide
    rw [← same, I.set_read_self]
    rfl

/-- The table of loads that undo stores goes from stores to loads. -/
theorem isLoad_of_matchingLoad? {c d : Command} {store load : Opcode} (stores : c.op? = some store)
    (loads : d.op? = some load) (undoes : matchingLoad? store = some load) :
    c.isStore = true ∧ d.isLoad = true := by
  rw [Command.isStore, Command.isLoad, Command.has_of_op? stores, Command.has_of_op? loads]
  cases store <;> simp [matchingLoad?] at undoes <;> subst undoes <;> exact ⟨rfl, rfl⟩

/-- A load right behind the store of the same operand to the same place changes nothing. -/
theorem exec_reload (laws : I.MovesData) {c d : Command} {store load : Opcode} {value : Operand}
    {offset : Offset} {base : Reg} (stores : c.op? = some store) (loads : d.op? = some load)
    (undoes : matchingLoad? store = some load) (args : c.args = [value, .mem offset base])
    (sameArgs : d.args = c.args) : I.exec d (I.exec c s) = I.exec c s := by
  obtain ⟨isStore, isLoad⟩ := isLoad_of_matchingLoad? stores loads undoes
  have storeForm : c.form? = some .use := Command.form?_of_isStore isStore args
  have loadForm : d.form? = some .define := Command.form?_of_isLoad isLoad (sameArgs.trans args)
  have silent : d.writesMemory = false := by
    simp [Command.writesMemory, Command.silent_of_isLoad isLoad]
  have kept : ∀ r, I.read (I.exec c s) r = I.read s r := fun r =>
    I.read_exec_of_not_mem_clobbers (by
      rw [Command.clobbers_eq_defs storeForm (Command.stays_of_isStore isStore).2]
      simp [Command.defs, storeForm, Command.regsAt, Form.use])
  cases value with
  | reg r =>
    have stored : (I.exec c s).mem =
        I.memory ⟨some store, [.value (I.read s r), .place offset (I.read s base)], [], s.mem⟩ := by
      have writes : c.writesMemory = true := by simp [Command.writesMemory, isStore]
      simp [Interpretation.exec, storeForm, writes, Interpretation.inputs, stores,
        Interpretation.seen, args, Interpretation.seenAt, Form.use]
    have target : d.regsAt Form.define.defs = [r] := by
      simp [Command.regsAt, Form.define, sameArgs, args, Operand.reg?]
    rw [I.exec_of_single loadForm silent target]
    have same : I.result (I.inputs d (I.exec c s)) = I.read (I.exec c s) r := by
      rw [kept r, ← laws.reload store load (I.read s r) offset (I.read s base) s.mem undoes,
        ← stored, ← kept base]
      simp [Interpretation.inputs, loads, Interpretation.seen, sameArgs, args, loadForm,
        Interpretation.seenAt, Form.define]
    rw [same, I.set_read_self]
  | imm _ | sym _ | mem _ _ =>
    refine I.exec_of_no_defs loadForm silent ?_ rfl
    simp [Command.regsAt, Form.define, sameArgs, args, Operand.reg?]

/-- A shift by zero is a copy. -/
theorem exec_shift (laws : I.MovesData) {c : Command} {a b : Reg} (shifts : c.isShift = true)
    (args : c.args = [.reg a, .reg b, .imm 0]) : I.exec c s = s.set a (I.read s b) := by
  obtain ⟨op, isOp, isShift⟩ := Command.has_iff.1 shifts
  have form : c.form? = some .binary := Command.form?_of_isShift shifts args
  have silent : c.writesMemory = false := by
    simp [Command.writesMemory, Command.silent_of_isArith (Command.isArith_of_isShift shifts)]
  have target : c.regsAt Form.binary.defs = [a] := by
    simp [Command.regsAt, Form.binary, args, Operand.reg?]
  rw [I.exec_of_single form silent target, ← laws.shift op (I.read s b) s.mem isShift]
  simp [Interpretation.inputs, isOp, form, Interpretation.seen, args, Interpretation.seenAt,
    Form.binary]

/-! ## The five rules on a block -/

/-- The rules that look at the instructions alone. -/
def factFree : List Rule :=
  [dropSelfCopy, readThroughCopy, dropCopyBack, dropReload, simplifyShift]

/-- The command and the one behind it are `move $0, b; move b, $0`, and `b` does not hold zero.
The second copy clears `b`. -/
def LosesZero (I : Interpretation V M) (s : MachineState V M) (c : Command) (rest : List Instr) :
    Prop :=
  ∃ b, c = .copy Reg.zero b ∧ rest.head?.bind Instr.command? = some (.copy b Reg.zero) ∧
    I.read s b ≠ I.zero

theorem set_zero_eq_self_iff {b : Reg} : s = s.set b I.zero ↔ I.read s b = I.zero := by
  constructor
  · intro same
    cases zero : b.isZero with
    | true => exact I.read_zero zero
    | false =>
      rw [same]
      exact I.read_set_self zero
  · intro cleared
    rw [← cleared, I.set_read_self]

/-- Each of the five rules leaves the meaning of its window as it is, unless it drops a copy that
clears its register. -/
theorem execAll_window_iff (laws : I.MovesData) {rule : Rule} (member : rule ∈ factFree)
    (command : p.command? = some c) (applies : rule v next p c rest = some w) :
    I.execAll w.repl s = I.execAll ((p :: rest).take w.count) s ↔ ¬ LosesZero I s c rest := by
  simp only [factFree, List.mem_cons, List.not_mem_nil, or_false] at member
  rcases member with rfl | rfl | rfl | rfl | rfl
  · obtain ⟨a, rfl, count, repl, -⟩ := dropSelfCopy_eq_some applies
    refine iff_of_true ?_ ?_
    · rw [count, repl]
      simp [I.execInstr_of_command command, I.exec_copy laws.copy, I.set_read_self]
    · rintro ⟨b, isCopy, -, nonzero⟩
      obtain ⟨rfl, rfl⟩ := Command.copy_inj.1 isCopy
      exact nonzero (I.read_zero rfl)
  · obtain ⟨a, b, q, others, d, rfl, rfl, follows, known, stays, first, second, written, sites,
      count, repl, -⟩ := readThroughCopy_eq_some applies
    refine iff_of_true ?_ ?_
    · rw [count, repl]
      simp [I.execInstr_of_command command, I.execInstr_of_command follows,
        I.execInstr_of_command (Instr.command?_withCommand q _),
        exec_folded laws stays first second written sites]
    · rintro ⟨b', isCopy, back, nonzero⟩
      obtain ⟨rfl, rfl⟩ := Command.copy_inj.1 isCopy
      simp only [List.head?_cons, Option.bind_some, follows, Option.some.injEq] at back
      subst back
      simp only [Command.copy, Command.ofOpcode, List.getElem?_cons_zero, Option.some.injEq,
        Operand.reg.injEq] at first
      subst first
      exact nonzero (I.read_zero rfl)
  · obtain ⟨a, b, q, others, rfl, rfl, follows, count, repl, -⟩ := dropCopyBack_eq_some applies
    rw [count, repl]
    simp only [List.take_succ_cons, List.take_zero, Interpretation.execAll_cons,
      Interpretation.execAll_nil, I.execInstr_of_command command, I.execInstr_of_command follows,
      exec_copyBack laws]
    cases zero : a.isZero with
    | true =>
      obtain rfl : a = Reg.zero := by simpa [Reg.isZero] using zero
      rw [I.exec_copy laws.copy, MachineState.set_zero zero, if_pos rfl, set_zero_eq_self_iff]
      constructor
      · rintro cleared ⟨b', isCopy, -, nonzero⟩
        obtain ⟨-, rfl⟩ := Command.copy_inj.1 isCopy
        exact nonzero cleared
      · intro keeps
        refine Classical.byContradiction fun nonzero => keeps ⟨b, rfl, ?_, nonzero⟩
        simpa using follows
    | false =>
      refine iff_of_true rfl ?_
      rintro ⟨b', isCopy, -, -⟩
      rw [(Command.copy_inj.1 isCopy).1] at zero
      exact absurd zero (by decide)
  · obtain ⟨store, load, value, offset, base, q, others, d, stores, undoes, args, rfl, follows,
      loads, sameArgs, count, repl, -⟩ := dropReload_eq_some applies
    refine iff_of_true ?_ ?_
    · rw [count, repl]
      simp [I.execInstr_of_command command, I.execInstr_of_command follows,
        exec_reload laws stores loads undoes args sameArgs]
    · rintro ⟨b, rfl, -, -⟩
      simp [Command.copy, Command.ofOpcode] at args
  · obtain ⟨a, b, shifts, args, nonzero, count, outcome⟩ := simplifyShift_eq_some applies
    refine iff_of_true ?_ ?_
    · rw [count]
      rcases outcome with ⟨rfl, repl, -⟩ | ⟨-, repl, -⟩
      · rw [repl]
        simp [I.execInstr_of_command command, exec_shift laws shifts args, I.set_read_self]
      · rw [repl]
        simp [I.execInstr_of_command command, exec_shift laws shifts args,
          I.execInstr_of_command (Instr.command?_ofCommand next _), I.exec_copy laws.copy]
    · rintro ⟨b, rfl, -, -⟩
      simp [Command.copy, Command.ofOpcode] at args

theorem count_le_length {rule : Rule} (member : rule ∈ rules)
    (applies : rule v next p c rest = some w) : w.count ≤ (p :: rest).length := by
  simp only [rules, List.mem_cons, List.not_mem_nil, or_false] at member
  rcases member with rfl | rfl | rfl | rfl | rfl | rfl | rfl
  · obtain ⟨a, -, count, -⟩ := dropSelfCopy_eq_some applies
    simp [count]
  · obtain ⟨a, b, q, others, d, -, rfl, -, -, -, -, -, -, -, count, -⟩ :=
      readThroughCopy_eq_some applies
    simp [count]
  · obtain ⟨t, args, a, q, r, others, call, -, rfl, -, -, -, -, -, -, -, -, -, count, -⟩ :=
      computeArgument_eq_some applies
    simp [count]
  · obtain ⟨a, b, q, others, -, rfl, -, count, -⟩ := dropCopyBack_eq_some applies
    simp [count]
  · obtain ⟨store, load, value, offset, base, q, others, d, -, -, -, rfl, -, -, -, count, -⟩ :=
      dropReload_eq_some applies
    simp [count]
  · obtain ⟨a, b, -, -, -, count, -⟩ := simplifyShift_eq_some applies
    simp [count]
  · obtain ⟨a, n, dst, m, q, others, d, -, -, rfl, -, -, -, -, count, -⟩ :=
      foldOffset_eq_some applies
    simp [count]

/-- The content of a block after the edit that a rule asks for. -/
theorem content_edited {rule : Rule} (member : rule ∈ rules)
    (applies : rule v next p c rest = some w) (before : List Instr) :
    (Edit.splice v.annotated (before ++ p :: rest) before.length w.count w.repl w.note).map
        Instr.content =
      (before ++ w.repl ++ (p :: rest).drop w.count).map Instr.content := by
  have fits : ((p :: rest).take w.count).length = w.count :=
    List.length_take_of_le (count_le_length member applies)
  have split : before ++ p :: rest =
      before ++ (p :: rest).take w.count ++ (p :: rest).drop w.count := by
    rw [List.append_assoc, List.take_append_drop]
  have window := Edit.exchange_window before ((p :: rest).take w.count)
    ((p :: rest).drop w.count) w.repl
  rw [← split, fits] at window
  rw [Edit.content_splice, window]

/-- The rules that consult no facts are exact, with one exception. A rewrite leaves every register
and every word of memory at the end of the block as they were, unless it drops the second of
`move $0, b; move b, $0` where `b` does not hold zero; there, and only there, the window itself
ends in another state. -/
theorem factFree_rule_exact (laws : I.MovesData) {rule : Rule} (member : rule ∈ factFree)
    (command : p.command? = some c) (applies : rule v next p c rest = some w)
    (before : List Instr) (s : MachineState V M) :
    (I.execAll w.repl (I.execAll before s) =
        I.execAll ((p :: rest).take w.count) (I.execAll before s) ↔
      ¬ LosesZero I (I.execAll before s) c rest) ∧
    (¬ LosesZero I (I.execAll before s) c rest →
      I.execAll (Edit.splice v.annotated (before ++ p :: rest) before.length w.count w.repl w.note)
        s = I.execAll (before ++ p :: rest) s) := by
  have window := execAll_window_iff (s := I.execAll before s) laws member command applies
  refine ⟨window, fun keeps => ?_⟩
  have sublist : rule ∈ rules := by
    simp only [factFree, rules, List.mem_cons, List.not_mem_nil, or_false] at member ⊢
    rcases member with rfl | rfl | rfl | rfl | rfl <;> simp
  rw [I.execAll_congr (content_edited sublist applies before), I.execAll_append, I.execAll_append,
    window.2 keeps, ← I.execAll_append, List.take_append_drop, ← I.execAll_append]

/-- The rules on `sll $8, $9, 0; jr $31`. -/
theorem factFree_rule_exact_shift :
    let p := Instr.ofCommand 1 (.ofOpcode .sll [.reg (.general 8), .reg (.general 9), .imm 0])
    let q := Instr.ofCommand 2 (.ofOpcode .jr [.reg Reg.link])
    let s : MachineState Word Memory := ⟨fun _ => 7, fun _ => 0⟩
    (Words.meaning fun _ _ => none).execAll
        (Edit.splice false [p, q] 0 1 [.ofCommand 3 (.copy (.general 8) (.general 9))]
          ("shift by zero: " ++ p.text)) s =
      (Words.meaning fun _ _ => none).execAll [p, q] s := by
  intro p q s
  have applies : simplifyShift ⟨false, .empty, .empty, false⟩ 3 p (.ofOpcode .sll
      [.reg (.general 8), .reg (.general 9), .imm 0]) [q] = some ⟨1,
        [.ofCommand 3 (.copy (.general 8) (.general 9))], "shift by zero: " ++ p.text, 4⟩ := rfl
  refine (factFree_rule_exact (wordsMoveData fun _ _ => none) (by simp [factFree]) rfl applies []
    s).2 ?_
  rintro ⟨b, isCopy, -⟩
  simp [Command.copy, Command.ofOpcode] at isCopy

/-- On `move $0, $8; move $8, $0` the copy that clears the register is dropped. -/
theorem dropCopyBack_loses_zero :
    let v : View := ⟨false, .empty, .empty, false⟩
    let p := Instr.ofCommand 1 (.copy Reg.zero (.general 8))
    let q := Instr.ofCommand 2 (.copy (.general 8) Reg.zero)
    let I := Words.meaning fun _ _ => none
    let s : MachineState Word Memory := ⟨fun _ => 7, fun _ => 0⟩
    ∃ w, dropCopyBack v 3 p (.copy Reg.zero (.general 8)) [q] = some w ∧
      (I.execAll (Edit.splice v.annotated [p, q] 0 w.count w.repl w.note) s).regs (.general 8) = 7 ∧
      (I.execAll [p, q] s).regs (.general 8) = 0 :=
  ⟨_, rfl, rfl, rfl⟩

end Redundancy

end MipsFlow
