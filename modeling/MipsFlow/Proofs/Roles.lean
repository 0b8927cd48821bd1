import MipsFlow.Instr.Roles

/-!
# Facts about operand roles

What the table of forms says about a command, in the shape that proofs use: which operand a form
can write, the registers written and read as plain membership, and plain copies as one command.
-/

namespace MipsFlow

/-! ## The table -/

/-- A form writes no operand, or only the first, or only the second, and if it writes one then no
register besides. If it writes the second, the first is read. With any operand, whatever is written
without being named comes from the first; with several, what writes the first reads nothing that is
not named. -/
theorem Family.form?_shape {family : Family} {n : Nat} {form : Form}
    (entry : family.form? n = some form) :
    (form.defs = [] ∧ (1 ≤ n → form.impliedDefs = [] ∨ 0 ∈ form.uses)) ∨
      (form.defs = [0] ∧ form.impliedDefs = [] ∧ (2 ≤ n → form.impliedUses = [])) ∨
      (form.defs = [1] ∧ form.impliedDefs = [] ∧ 0 ∈ form.uses) := by
  unfold Family.form? at entry
  split at entry <;> cases entry <;> simp [Form.system, Form.accumulate, Form.binary,
    Form.multiplier, Form.unary, Form.unaryReversed, Form.fetch, Form.put, Form.define, Form.use,
    Form.compare, Form.linkedCall, Form.useBoth, Form.testFlag]

/-- What may write memory is a jump, or writes no operand. -/
theorem Opcode.defs_eq_nil {op : Opcode} {n : Nat} {form : Form}
    (entry : op.family.form? n = some form) (jumps : op.has .jump = false)
    (writes : op.has .store = true ∨ op.has .call = true ∨ op.has .barrier = true) :
    form.defs = [] := by
  have writesMemory : op.family ∈ [.single, .system, .coded] := by
    revert jumps writes
    cases op <;> decide
  unfold Family.form? at entry
  split at entry <;> cases entry <;> simp_all [Form.use, Form.system]

/-- A jump writes no register, unless it calls. -/
theorem Opcode.form_of_jump {op : Opcode} {n : Nat} {form : Form}
    (entry : op.family.form? n = some form) (jumps : op.has .jump = true)
    (noCall : op.has .call = false) : form.defs = [] ∧ form.impliedDefs = [] := by
  have goes : op.family ∈ [.jump, .branch, .single, .flagBranch] := by
    revert jumps noCall
    cases op <;> decide
  unfold Family.form? at entry
  split at entry <;> cases entry <;> simp_all [Form.use, Form.useBoth, Form.testFlag]

/-- What neither jumps nor calls the system writes no register of the source without naming it. -/
theorem Opcode.impliedDefs_pseudo {op : Opcode} {n : Nat} {form : Form}
    (entry : op.family.form? n = some form) (stays : op.has .jump = false)
    (serves : op.has .barrier = false) : ∀ r ∈ form.impliedDefs, r.isPseudo = true := by
  have inside : op.family ∉ [.system, .call, .callThrough] := by
    revert stays serves
    cases op <;> decide
  have puts : ∀ r, op.family = .put r → r.isPseudo = true := by
    cases op <;> simp [Opcode.family, Reg.isPseudo]
  generalize op.family = family at *
  unfold Family.form? at entry
  split at entry <;> cases entry <;>
    simp_all [Form.accumulate, Form.binary, Form.multiplier, Form.unary, Form.unaryReversed,
      Form.fetch, Form.put, Form.define, Form.use, Form.compare, Form.useBoth, Form.testFlag,
      Reg.isPseudo]

/-- By the table, the opcode computes the first of its operands from that many others, and does
nothing else. -/
structure Opcode.Computes (op : Opcode) (n : Nat) : Prop where
  arith : op.has .arith = true
  safe : op.has .trap = false
  form : n = 1 ∧ op.family.form? 2 = some .unary ∨ n = 2 ∧ op.family.form? 3 = some .binary

/-- By the table, what computes, loads or copies does nothing else. -/
theorem Opcode.effects_of_value {op : Opcode}
    (value : op.has .arith = true ∨ op.has .load = true ∨ op ∈ [.move, .mflo, .mfhi]) :
    op.has .jump = false ∧ op.has .store = false ∧ op.has .barrier = false := by
  revert value
  cases op <;> decide

theorem Opcode.effects_of_store {op : Opcode} (stores : op.has .store = true) :
    op.has .jump = false ∧ op.has .barrier = false := by
  revert stores
  cases op <;> decide

theorem Opcode.arith_of_shift {op : Opcode} (shifts : op.has .shift = true) :
    op.has .arith = true := by
  revert shifts
  cases op <;> decide

theorem Opcode.jump_of_call {op : Opcode} (calls : op.has .call = true) :
    op.has .jump = true := by
  revert calls
  cases op <;> decide

/-- What computes writes its first operand only, or the multiplier's registers. -/
theorem Opcode.form_of_arith {op : Opcode} {n : Nat} {form : Form}
    (entry : op.family.form? n = some form) (arith : op.has .arith = true) :
    n = 2 ∧ form = .unary ∨ n = 3 ∧ form = .binary ∨ form = .accumulate ∨ form = .multiplier := by
  have computes : op.family ∈ [.arithmetic, .multiply, .divide, .remainder, .unary] := by
    revert arith
    cases op <;> decide
  unfold Family.form? at entry
  split at entry <;> cases entry <;> simp_all

theorem Opcode.family_of_shift {op : Opcode} (shifts : op.has .shift = true) :
    op.family = .arithmetic := by
  revert shifts
  cases op <;> decide

theorem Opcode.family_of_load {op : Opcode} (loads : op.has .load = true) :
    op.family = .load := by
  revert loads
  cases op <;> decide

theorem Opcode.family_of_store {op : Opcode} (stores : op.has .store = true) :
    op.family = .single := by
  revert stores
  cases op <;> decide

namespace Command

variable {c d : Command} {form : Form} {r : Reg}

/-! ## Opcodes and forms -/

theorem op?_eq_some {op : Opcode} : c.op? = some op ↔ c.mnemonic = .known op := by
  unfold Command.op? Mnemonic.op?
  cases c.mnemonic <;> simp

theorem eq_ofOpcode {op : Opcode} {args : List Operand} (isOp : c.op? = some op)
    (isArgs : c.args = args) : c = .ofOpcode op args := by
  obtain ⟨mnemonic, _⟩ := c
  obtain rfl : mnemonic = .known op := op?_eq_some.1 isOp
  exact congrArg (Command.mk _) isArgs

theorem has_iff {t : Trait} : c.has t = true ↔ ∃ op, c.op? = some op ∧ op.has t = true := by
  unfold Command.has
  cases c.op? <;> simp

theorem has_of_op? {op : Opcode} (isOp : c.op? = some op) (t : Trait) : c.has t = op.has t := by
  rw [has, isOp, Option.any_some]

@[simp] theorem op?_ofOpcode (op : Opcode) (args : List Operand) :
    (Command.ofOpcode op args).op? = some op := rfl

theorem isForeign_eq_false : c.isForeign = false ↔ ∃ form, c.form? = some form := by
  unfold Command.isForeign
  cases c.form? <;> simp

/-- A command with a form divides into the multiplier, or has the form of its family. -/
theorem form?_eq_some (known : c.form? = some form) :
    (form = .multiplierAfterZero ∧ c.isMultiplierDivision = true ∧ c.args.length = 3) ∨
      ∃ op, c.op? = some op ∧ op.family.form? c.args.length = some form := by
  unfold Command.form? at known
  split at known
  · next division =>
    simp only [Bool.and_eq_true, decide_eq_true_eq] at division
    exact Or.inl ⟨(Option.some.inj known).symm, division⟩
  · obtain ⟨op, isOp, entry⟩ := Option.bind_eq_some_iff.1 known
    exact Or.inr ⟨op, isOp, entry⟩

theorem form?_of_op {op : Opcode} (isOp : c.op? = some op)
    (plain : c.isMultiplierDivision = false) : c.form? = op.family.form? c.args.length := by
  simp [Command.form?, isOp, plain]

theorem isMultiplierDivision_eq_false {op : Opcode} (isOp : c.op? = some op)
    (other : op ≠ .div ∧ op ≠ .divu) : c.isMultiplierDivision = false := by
  simp [Command.isMultiplierDivision, isOp, other]

/-- Only divisions may divide into the multiplier. -/
theorem form?_of_family {op : Opcode} (isOp : c.op? = some op) (other : op.family ≠ .divide) :
    c.form? = op.family.form? c.args.length :=
  form?_of_op isOp (isMultiplierDivision_eq_false isOp
    ⟨fun divides => other (divides ▸ rfl), fun divides => other (divides ▸ rfl)⟩)

/-- A form that writes an operand is that of the command's family. -/
theorem form?_entry (known : c.form? = some form) (writes : form.defs ≠ []) :
    ∃ op, c.op? = some op ∧ op.family.form? c.args.length = some form := by
  rcases form?_eq_some known with ⟨rfl, -⟩ | entry
  · exact absurd rfl writes
  · exact entry

theorem impliedDefs_of_defs (known : c.form? = some form) (writes : form.defs ≠ []) :
    form.impliedDefs = [] := by
  obtain ⟨op, -, entry⟩ := form?_entry known writes
  rcases Family.form?_shape entry with ⟨defs, -⟩ | ⟨-, alone, -⟩ | ⟨-, alone, -⟩
  · exact absurd defs writes
  · exact alone
  · exact alone

/-- A command that writes an operand and does not jump leaves memory alone. -/
theorem silent_of_defs (known : c.form? = some form) (writes : form.defs ≠ [])
    (stays : c.isJump = false) : c.isStore = false ∧ c.leavesCode = false := by
  obtain ⟨op, isOp, entry⟩ := form?_entry known writes
  have trait : ∀ t, c.has t = op.has t := fun t => by simp [Command.has, isOp]
  have jumps : op.has .jump = false := by rw [← trait]; exact stays
  have quiet : ∀ t, t = .store ∨ t = .call ∨ t = .barrier → op.has t = false := by
    intro t memory
    rw [Bool.eq_false_iff]
    intro present
    refine writes (Opcode.defs_eq_nil entry jumps ?_)
    rcases memory with rfl | rfl | rfl
    · exact Or.inl present
    · exact Or.inr (Or.inl present)
    · exact Or.inr (Or.inr present)
  constructor
  · exact (trait .store).trans (quiet _ (Or.inl rfl))
  · unfold Command.leavesCode
    rw [trait, trait, quiet _ (Or.inr (Or.inl rfl)), quiet _ (Or.inr (Or.inr rfl))]
    rfl

/-- A call is a jump. -/
theorem isJump_of_isCall (calls : c.isCall = true) : c.isJump = true := by
  obtain ⟨op, isOp, isCall⟩ := has_iff.1 calls
  exact has_iff.2 ⟨op, isOp, Opcode.jump_of_call isCall⟩

/-- What does not jump does not call. -/
theorem leavesCode_eq_false (stays : c.has .jump = false) (serves : c.has .barrier = false) :
    c.leavesCode = false := by
  have noCall : c.has .call = false :=
    Bool.eq_false_iff.2 fun calls => Bool.eq_false_iff.1 stays (isJump_of_isCall calls)
  rw [Command.leavesCode, noCall, serves]
  rfl

/-! ## Commands that compute, load, copy or store -/

theorem silent_of_value {op : Opcode} (isOp : c.op? = some op)
    (value : op.has .arith = true ∨ op.has .load = true ∨ op ∈ [.move, .mflo, .mfhi]) :
    c.isJump = false ∧ c.isStore = false ∧ c.leavesCode = false := by
  obtain ⟨stays, keeps, serves⟩ := Opcode.effects_of_value value
  rw [← has_of_op? isOp] at stays keeps serves
  exact ⟨stays, keeps, leavesCode_eq_false stays serves⟩

theorem silent_of_isArith (arith : c.isArith = true) :
    c.isJump = false ∧ c.isStore = false ∧ c.leavesCode = false := by
  obtain ⟨op, isOp, has⟩ := has_iff.1 arith
  exact silent_of_value isOp (Or.inl has)

theorem silent_of_isLoad (loads : c.isLoad = true) :
    c.isJump = false ∧ c.isStore = false ∧ c.leavesCode = false := by
  obtain ⟨op, isOp, has⟩ := has_iff.1 loads
  exact silent_of_value isOp (Or.inr (Or.inl has))

theorem stays_of_isStore (stores : c.isStore = true) :
    c.isJump = false ∧ c.leavesCode = false := by
  obtain ⟨op, isOp, has⟩ := has_iff.1 stores
  obtain ⟨stays, serves⟩ := Opcode.effects_of_store has
  rw [← has_of_op? isOp] at stays serves
  exact ⟨stays, leavesCode_eq_false stays serves⟩

/-- A shift computes. -/
theorem isArith_of_isShift (shifts : c.isShift = true) : c.isArith = true := by
  obtain ⟨op, isOp, has⟩ := has_iff.1 shifts
  exact has_iff.2 ⟨op, isOp, Opcode.arith_of_shift has⟩

theorem form?_of_isShift {x y z : Operand} (shifts : c.isShift = true)
    (args : c.args = [x, y, z]) : c.form? = some .binary := by
  obtain ⟨op, isOp, has⟩ := has_iff.1 shifts
  have family := Opcode.family_of_shift has
  rw [form?_of_family isOp (by simp [family]), family, args]
  rfl

theorem form?_of_isLoad {x y : Operand} (loads : c.isLoad = true) (args : c.args = [x, y]) :
    c.form? = some .define := by
  obtain ⟨op, isOp, has⟩ := has_iff.1 loads
  have family := Opcode.family_of_load has
  rw [form?_of_family isOp (by simp [family]), family, args]
  rfl

theorem form?_of_isStore {x y : Operand} (stores : c.isStore = true) (args : c.args = [x, y]) :
    c.form? = some .use := by
  obtain ⟨op, isOp, has⟩ := has_iff.1 stores
  have family := Opcode.family_of_store has
  rw [form?_of_family isOp (by simp [family]), family, args]
  rfl

/-! ## Exchanged operands -/

/-- Exchanging an operand behind the first one does not change the roles. -/
theorem form?_set_args (i : Nat) (o : Operand) :
    ({ c with args := c.args.set (i + 1) o } : Command).form? = c.form? := by
  obtain ⟨mnemonic, args⟩ := c
  have division : (⟨mnemonic, args.set (i + 1) o⟩ : Command).isMultiplierDivision =
      (⟨mnemonic, args⟩ : Command).isMultiplierDivision := by
    unfold Command.isMultiplierDivision
    congr 1
    match args with
    | [] => rfl
    | [_] => rfl
    | [_, _] => cases i <;> rfl
    | [_, _, _] => rcases i with _ | _ | _ <;> rfl
    | _ :: _ :: _ :: _ :: _ => rcases i with _ | _ | _ | _ <;> rfl
  unfold Command.form?
  rw [division, List.length_set]
  rfl

theorem form?_exchange_second {first second other : Operand} (args : c.args = [first, second]) :
    ({ c with args := [first, other] } : Command).form? = c.form? := by
  have exchanged := form?_set_args (c := c) 0 other
  rwa [args] at exchanged

/-! ## Registers written -/

theorem mem_defs : r ∈ c.defs ↔
    ∃ form, c.form? = some form ∧ (r ∈ c.regsAt form.defs ∨ r ∈ form.impliedDefs) := by
  unfold Command.defs
  cases c.form? <;> simp [List.mem_eraseDups]

theorem mem_clobbers_of_mem_defs (written : r ∈ c.defs) : r ∈ c.clobbers := by
  obtain ⟨form, known, -⟩ := mem_defs.1 written
  have understood : c.isForeign = false := isForeign_eq_false.2 ⟨form, known⟩
  unfold Command.clobbers
  rw [understood]
  split
  · contradiction
  · split
    · exact List.mem_eraseDups.2 (List.mem_append_left _ written)
    · exact written

/-- A known command that stays in sight changes exactly what it defines. -/
theorem clobbers_eq_defs (known : c.form? = some form) (stays : c.leavesCode = false) :
    c.clobbers = c.defs := by
  unfold Command.clobbers Command.isForeign
  rw [known, stays]
  rfl

theorem defs_of_isJump (jumps : c.isJump = true) (noCall : c.isCall = false) : c.defs = [] := by
  rw [List.eq_nil_iff_forall_not_mem]
  intro r written
  obtain ⟨form, known, writes⟩ := mem_defs.1 written
  rcases form?_eq_some known with ⟨-, divides, -⟩ | ⟨op, isOp, entry⟩
  · simp only [isMultiplierDivision, Bool.and_eq_true, Bool.or_eq_true,
      decide_eq_true_eq] at divides
    rw [isJump] at jumps
    rcases divides.1 with isOp | isOp
    · exact absurd jumps (by rw [has_of_op? isOp]; decide)
    · exact absurd jumps (by rw [has_of_op? isOp]; decide)
  · rw [isJump, has_of_op? isOp] at jumps
    rw [isCall, has_of_op? isOp] at noCall
    obtain ⟨noDefs, noImplied⟩ := Opcode.form_of_jump entry jumps noCall
    rw [noDefs, noImplied] at writes
    simp [regsAt] at writes

/-- A branch is a jump, and no call. -/
theorem isJump_of_isBranch (branches : c.isBranch = true) : c.isJump = true ∧ c.isCall = false := by
  obtain ⟨op, isOp, isBranch⟩ := has_iff.1 branches
  rw [isJump, isCall, has_of_op? isOp, has_of_op? isOp]
  revert isBranch
  cases op <;> decide

/-! ## Registers read -/

theorem mem_readSites {site : ReadSite} :
    site ∈ c.readSites ↔ ∃ o, c.args[site.index]? = some o ∧
      readAt? c.form? site.index o = some site.reg := by
  unfold Command.readSites
  rw [List.mem_filterMap]
  constructor
  · rintro ⟨⟨o, i⟩, member, found⟩
    obtain ⟨r, read, rfl⟩ := Option.map_eq_some_iff.1 found
    exact ⟨o, List.mem_zipIdx_iff_getElem?.1 member, read⟩
  · rintro ⟨o, here, read⟩
    exact ⟨(o, site.index), List.mem_zipIdx_iff_getElem?.2 here, by simp [read]⟩

theorem mem_uses_of_readAt {i : Nat} {o : Operand} (here : c.args[i]? = some o)
    (read : readAt? c.form? i o = some r) : r ∈ c.uses := by
  unfold Command.uses
  refine List.mem_eraseDups.2 (List.mem_append_left _ (List.mem_append_left _ ?_))
  exact List.mem_map.2 ⟨⟨i, r⟩, mem_readSites.2 ⟨o, here, read⟩, rfl⟩

theorem mem_uses_of_implied (known : c.form? = some form) (read : r ∈ form.impliedUses) :
    r ∈ c.uses := by
  unfold Command.uses
  refine List.mem_eraseDups.2 (List.mem_append_left _ (List.mem_append_right _ ?_))
  simpa [known] using read

/-! ## Copies -/

@[simp] theorem copy?_eq_some {dst src : Reg} : c.copy? = some (dst, src) ↔ c = .copy dst src := by
  constructor
  · intro copies
    obtain ⟨mnemonic, args⟩ := c
    unfold Command.copy? at copies
    split at copies
    · next op _ move args =>
      obtain rfl : mnemonic = .known .move := op?_eq_some.1 move
      cases copies
      cases args
      rfl
    · contradiction
  · rintro rfl
    rfl

@[simp] theorem copy_inj {a b x y : Reg} : Command.copy a b = .copy x y ↔ a = x ∧ b = y := by
  simp [Command.copy, Command.ofOpcode]

@[simp] theorem form?_copy (dst src : Reg) : (Command.copy dst src).form? = some .unary := rfl

@[simp] theorem defs_copy (dst src : Reg) : (Command.copy dst src).defs = [dst] := rfl

@[simp] theorem clobbers_copy (dst src : Reg) : (Command.copy dst src).clobbers = [dst] := rfl

theorem uses_copy (dst src : Reg) : (Command.copy dst src).uses = [src] := rfl

/-! ## Operations -/

section Operations

variable {op : Opcode} {d : Reg} {xs : List Operand}

theorem form?_ofOpcode (nonzero : d.isZero = false) :
    (Command.ofOpcode op (.reg d :: xs)).form? = op.family.form? (xs.length + 1) := by
  have elsewhere : ((Command.ofOpcode op (.reg d :: xs)).isMultiplierDivision &&
      (Command.ofOpcode op (.reg d :: xs)).args.length = 3) = false := by
    have other : (Operand.reg d).isReg Reg.zero = false := by
      simpa [Operand.isReg, Operand.reg?, Reg.isZero] using nonzero
    match xs with
    | [] | [_] | _ :: _ :: _ :: _ => simp [ofOpcode]
    | [_, _] => simp [ofOpcode, isMultiplierDivision, other]
  unfold Command.form?
  rw [elsewhere]
  rfl

theorem form_of_computes (nonzero : d.isZero = false) (computes : op.Computes xs.length) :
    (∃ x, xs = [x] ∧ (Command.ofOpcode op (.reg d :: xs)).form? = some .unary) ∨
      ∃ x y, xs = [x, y] ∧ (Command.ofOpcode op (.reg d :: xs)).form? = some .binary := by
  rw [form?_ofOpcode nonzero]
  rcases computes.form with ⟨one, entry⟩ | ⟨two, entry⟩
  · obtain ⟨x, rfl⟩ := List.length_eq_one_iff.1 one
    exact Or.inl ⟨x, rfl, entry⟩
  · match xs, two with
    | [x, y], _ => exact Or.inr ⟨x, y, rfl, entry⟩

theorem isPure_of_computes (nonzero : d.isZero = false) (computes : op.Computes xs.length) :
    (Command.ofOpcode op (.reg d :: xs)).isPure = true := by
  obtain ⟨stays, keeps, serves⟩ := Opcode.effects_of_value (Or.inl computes.arith)
  have known : (Command.ofOpcode op (.reg d :: xs)).isForeign = false := by
    rw [isForeign_eq_false]
    rcases form_of_computes nonzero computes with ⟨-, -, form⟩ | ⟨-, -, -, form⟩
    · exact ⟨_, form⟩
    · exact ⟨_, form⟩
  simp [isPure, known, has_of_op? (op?_ofOpcode op _), stays, keeps, serves, computes.safe]

theorem defs_of_computes (nonzero : d.isZero = false) (computes : op.Computes xs.length) :
    (Command.ofOpcode op (.reg d :: xs)).defs = [d] := by
  rcases form_of_computes nonzero computes with ⟨-, -, form⟩ | ⟨-, -, -, form⟩ <;>
  · simp only [defs, form]
    rfl

end Operations

end Command

namespace Instr

@[simp] theorem command?_withCommand (p : Instr) (c : Command) :
    (p.withCommand c).command? = some c := rfl

@[simp] theorem command?_ofCommand (id : Nat) (c : Command) :
    (Instr.ofCommand id c).command? = some c := rfl

variable {p : Instr} {c : Command}

theorem isCommandWith_of_command (command : p.command? = some c) (property : Command → Bool) :
    p.isCommandWith property = property c := by
  rw [isCommandWith, command, Option.any_some]

theorem isJump_of_command (command : p.command? = some c) : p.isJump = c.isJump :=
  isCommandWith_of_command command Command.isJump

theorem renameReads_of_command (command : p.command? = some c) (source target : Reg) :
    p.renameReads source target = p.withCommand (c.renameReads source target) := by
  rw [renameReads, command]

end Instr

end MipsFlow
