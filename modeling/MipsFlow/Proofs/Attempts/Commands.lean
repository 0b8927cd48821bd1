import Mathlib.Data.List.Basic
import MipsFlow.Proofs.Attempts.Basic
import MipsFlow.Proofs.Renaming

/-!
# Looking up operands

A command may have any number of operands of any kind, so every question about a command has to
look at the number of operands before it looks one up, and the table of forms may only name
operands that are there. Each question is asked here with the look-ups in it, and has the answer
that it has without them.
-/

namespace MipsFlow

/-- A form writes only operands that are there. -/
theorem Family.lt_of_mem_defs {family : Family} {n i : Nat} {form : Form}
    (entry : family.form? n = some form) (written : i ∈ form.defs) : i < n := by
  unfold Family.form? at entry
  split at entry <;> cases entry <;>
    simp_all [Form.system, Form.accumulate, Form.binary, Form.multiplier, Form.unary,
      Form.unaryReversed, Form.fetch, Form.put, Form.define, Form.use, Form.compare,
      Form.linkedCall, Form.useBoth, Form.testFlag]

/-- No command takes more than three operands. -/
theorem Family.form?_eq_none {family : Family} {n : Nat} (many : 4 ≤ n) :
    family.form? n = none := by
  match n, many with
  | n + 4, _ => cases family <;> rfl

namespace Attempt

variable {c : Command}

/-- The operand at a position. -/
def operand (c : Command) (i : Nat) : Attempt Operand := index c.args i

theorem operand_eq {i : Nat} {o : Operand} (here : c.args[i]? = some o) :
    operand c i = pure o := index_eq here

/-! ## Classification -/

/-- Destination and source of a plain register copy. -/
def copy? (c : Command) : Attempt (Option (Reg × Reg)) := do
  if c.op? = some .move ∧ c.args.length = 2 then
    match ← operand c 0, ← operand c 1 with
    | .reg dst, .reg src => return some (dst, src)
    | _, _ => return none
  else return none

@[simp] theorem copy?_eq (c : Command) : copy? c = pure c.copy? := by
  obtain ⟨mnemonic, args⟩ := c
  unfold copy? Command.copy?
  by_cases isMove : (⟨mnemonic, args⟩ : Command).op? = some .move
  · match args with
    | [] => simp [isMove]
    | [x] => simp [isMove]
    | [x, y] =>
      have first : operand ⟨mnemonic, [x, y]⟩ 0 = pure x := operand_eq rfl
      have second : operand ⟨mnemonic, [x, y]⟩ 1 = pure y := operand_eq rfl
      rw [if_pos ⟨isMove, rfl⟩, first, pure_bind, second, pure_bind, isMove]
      cases x <;> cases y <;> rfl
    | x :: y :: z :: more => simp [isMove]
  · rw [if_neg (fun both => isMove both.1)]
    split
    · next isOp _ => exact absurd isOp isMove
    · rfl

/-- The command reads memory through an `offset(base)` operand. -/
def readsMemory (c : Command) : Attempt Bool := do
  if c.isLoad ∧ c.args.length = 2 then
    match ← operand c 1 with
    | .mem _ _ => return c.op? != some .la
    | _ => return false
  else return false

@[simp] theorem readsMemory_eq (c : Command) : readsMemory c = pure c.readsMemory := by
  obtain ⟨mnemonic, args⟩ := c
  unfold readsMemory Command.readsMemory
  by_cases loads : (⟨mnemonic, args⟩ : Command).isLoad = true
  · match args with
    | [] => simp [loads]
    | [x] => simp [loads]
    | [x, y] =>
      have second : operand ⟨mnemonic, [x, y]⟩ 1 = pure y := operand_eq rfl
      rw [if_pos ⟨loads, rfl⟩, second, pure_bind, loads]
      cases y <;> simp
    | x :: y :: z :: more => simp [loads]
  · rw [if_neg (fun both => loads both.1), Bool.not_eq_true _ |>.mp loads]
    rfl

/-- The command returns to the caller: a jump to the link register. -/
def isReturn (c : Command) : Attempt Bool := do
  if (c.op? = some .jr ∨ c.op? = some .j) ∧ c.args.length = 1 then
    return (← operand c 0).isReg Reg.link
  else return false

@[simp] theorem isReturn_eq (c : Command) : isReturn c = pure c.isReturn := by
  obtain ⟨mnemonic, args⟩ := c
  unfold isReturn Command.isReturn
  match args with
  | [] => simp
  | [x] =>
    have first : operand ⟨mnemonic, [x]⟩ 0 = pure x := operand_eq rfl
    rw [first, pure_bind]
    generalize (⟨mnemonic, [x]⟩ : Command).op? = op?
    by_cases isOp : op? = some .jr ∨ op? = some .j
    · rw [if_pos ⟨isOp, rfl⟩]
      rcases isOp with rfl | rfl <;> cases x <;> simp [Operand.isReg, Operand.reg?]
    · simp [not_or.1 isOp]
  | x :: y :: more => simp

/-- The last operand of a command that has operands. -/
def lastOperand (c : Command) : Attempt Operand := operand c (c.args.length - 1)

theorem lastOperand_eq {o : Operand} (isLast : c.args.getLast? = some o) :
    lastOperand c = pure o := by
  rw [List.getLast?_eq_getElem?] at isLast
  exact operand_eq isLast

/-- Control goes where a register other than the link register says. -/
def isIndirect (c : Command) : Attempt Bool := do
  if !c.isJump || (← isReturn c) || c.args.isEmpty then return false
  else
    match ← lastOperand c with
    | .reg _ => return !c.isBranch
    | _ => return false

@[simp] theorem isIndirect_eq (c : Command) : isIndirect c = pure c.isIndirect := by
  unfold isIndirect Command.isIndirect
  rw [isReturn_eq, pure_bind]
  cases isLast : c.args.getLast? with
  | none =>
    rw [List.getLast?_eq_none_iff.1 isLast]
    simp
  | some o =>
    have nonempty : c.args.isEmpty = false := by
      cases args : c.args with
      | nil => simp [args] at isLast
      | cons => rfl
    rw [nonempty, lastOperand_eq isLast, pure_bind]
    cases c.isJump <;> cases c.isReturn <;> cases c.isBranch <;> cases o <;> rfl

/-- The label that a jump goes to, if its last operand is a symbol. -/
def target? (c : Command) : Attempt (Option String) := do
  if !c.isJump || c.args.isEmpty then return none
  else
    match ← lastOperand c with
    | .sym label => return some label
    | _ => return none

@[simp] theorem target?_eq (c : Command) : target? c = pure c.target? := by
  unfold target? Command.target?
  cases isLast : c.args.getLast? with
  | none =>
    rw [List.getLast?_eq_none_iff.1 isLast]
    simp
  | some o =>
    have nonempty : c.args.isEmpty = false := by
      cases args : c.args with
      | nil => simp [args] at isLast
      | cons => rfl
    rw [nonempty, lastOperand_eq isLast, pure_bind]
    cases c.isJump <;> cases o <;> rfl

/-- The command is an unconditional jump to a label. -/
def isPlainJump (c : Command) : Attempt Bool := do
  if c.op? = some .j ∨ c.op? = some .b then return (← target? c).isSome else return false

@[simp] theorem isPlainJump_eq (c : Command) : isPlainJump c = pure c.isPlainJump := by
  unfold isPlainJump Command.isPlainJump
  rw [target?_eq, pure_bind]
  by_cases isOp : c.op? = some .j ∨ c.op? = some .b
  · rw [if_pos isOp]
    rcases isOp with isOp | isOp <;> simp [isOp]
  · rw [if_neg isOp]
    simp [not_or.1 isOp]

/-- The command divides into the multiplier's registers. -/
def isMultiplierDivision (c : Command) : Attempt Bool := do
  if c.op? ≠ some .div ∧ c.op? ≠ some .divu then return false
  else if c.args.length = 2 then return true
  else if c.args.length = 3 then return (← operand c 0).isReg Reg.zero
  else return false

@[simp] theorem isMultiplierDivision_eq (c : Command) :
    isMultiplierDivision c = pure c.isMultiplierDivision := by
  obtain ⟨mnemonic, args⟩ := c
  unfold isMultiplierDivision Command.isMultiplierDivision
  by_cases other : (⟨mnemonic, args⟩ : Command).op? ≠ some .div ∧
      (⟨mnemonic, args⟩ : Command).op? ≠ some .divu
  · rw [if_pos other]
    simp [other.1, other.2]
  · have isOp : (decide ((⟨mnemonic, args⟩ : Command).op? = some .div) ||
        decide ((⟨mnemonic, args⟩ : Command).op? = some .divu)) = true := by
      simpa [imp_iff_not_or] using other
    rw [if_neg other, isOp]
    match args with
    | [] => rfl
    | [x] => rfl
    | [x, y] => rfl
    | [x, y, z] =>
      have first : operand ⟨mnemonic, [x, y, z]⟩ 0 = pure x := operand_eq rfl
      rw [first, pure_bind]
      rfl
    | x :: y :: z :: w :: more => simp

/-! ## Forms -/

/-- The forms of a command by the number of operands, in a table with four entries. -/
def formTable (c : Command) : List (Option Form) :=
  (List.range 4).map fun n => c.op?.bind fun op => op.family.form? n

/-- The roles of the operands. -/
def form? (c : Command) : Attempt (Option Form) := do
  if (formTable c).length ≤ c.args.length then return none
  else if (← isMultiplierDivision c) && c.args.length = 3 then return some .multiplierAfterZero
  else index (formTable c) c.args.length

@[simp] theorem form?_eq (c : Command) : form? c = pure c.form? := by
  unfold form? Command.form?
  have length : (formTable c).length = 4 := rfl
  rw [length, isMultiplierDivision_eq, pure_bind]
  by_cases many : 4 ≤ c.args.length
  · have other : c.args.length ≠ 3 := by omega
    have none : (c.op?.bind fun op => op.family.form? c.args.length) = none := by
      cases c.op? with
      | none => rfl
      | some op => exact Family.form?_eq_none many
    simp [many, other, none]
  · rw [if_neg many]
    have entry : (formTable c)[c.args.length]? =
        some (c.op?.bind fun op => op.family.form? c.args.length) := by
      simp only [formTable, List.getElem?_map, List.getElem?_range (Nat.lt_of_not_le many),
        Option.map_some]
    rw [index_eq entry]
    split <;> rfl

/-- Nothing is known about what the command does with its operands. -/
def isForeign (c : Command) : Attempt Bool := return (← form? c).isNone

@[simp] theorem isForeign_eq (c : Command) : isForeign c = pure c.isForeign := by
  rw [isForeign, form?_eq, pure_bind]
  rfl

/-- The command has no effect besides what it writes to registers. -/
def isPure (c : Command) : Attempt Bool := do
  if ← isForeign c then return false
  else return !(c.has .jump || c.has .store || c.has .trap || c.has .barrier)

@[simp] theorem isPure_eq (c : Command) : isPure c = pure c.isPure := by
  unfold isPure Command.isPure
  rw [isForeign_eq, pure_bind]
  cases c.isForeign <;> simp [Bool.and_assoc]

/-! ## Registers written and read -/

/-- The registers that are definitely written, those of the operands first. -/
def defs (c : Command) : Attempt (List Reg) := do
  match ← form? c with
  | none => return []
  | some form =>
    let written ← form.defs.mapM (operand c)
    return (written.filterMap Operand.reg? ++ form.impliedDefs).eraseDups

/-- The operands that the form of a command writes are there. -/
theorem operands_eq {form : Form} (known : c.form? = some form) :
    ∃ written, form.defs.mapM (operand c) = pure written ∧
      written.filterMap Operand.reg? = c.regsAt form.defs := by
  have inside : ∀ i ∈ form.defs, i < c.args.length := by
    intro i written
    obtain ⟨op, -, entry⟩ := Command.form?_entry known (List.ne_nil_of_mem written)
    exact Family.lt_of_mem_defs entry written
  refine ⟨form.defs.map fun i => c.args[i]?.getD (.imm 0), mapM_eq fun i written => ?_, ?_⟩
  · exact operand_eq (by simp [List.getElem?_eq_getElem (inside i written)])
  · rw [List.filterMap_map, Command.regsAt]
    refine List.filterMap_congr fun i written => ?_
    simp [List.getElem?_eq_getElem (inside i written)]

@[simp] theorem defs_eq (c : Command) : defs c = pure c.defs := by
  unfold defs Command.defs
  rw [form?_eq, pure_bind]
  cases known : c.form? with
  | none => rfl
  | some form =>
    obtain ⟨written, found, regs⟩ := operands_eq known
    simp only [found, pure_bind, regs]

/-- Every register that may be written. -/
def clobbers (c : Command) : Attempt (List Reg) := do
  if ← isForeign c then return (c.args.filterMap Operand.reg?).eraseDups
  else if c.leavesCode then return ((← defs c) ++ Reg.callerSaved).eraseDups
  else defs c

@[simp] theorem clobbers_eq (c : Command) : clobbers c = pure c.clobbers := by
  unfold clobbers Command.clobbers
  rw [isForeign_eq, pure_bind, defs_eq, pure_bind]
  cases c.isForeign <;> cases c.leavesCode <;> rfl

/-- The positions where a register is read, in operand order. -/
def readSites (c : Command) : Attempt (List ReadSite) := do
  let form ← form? c
  return c.args.zipIdx.filterMap fun (o, i) => (Command.readAt? form i o).map (⟨i, ·⟩)

@[simp] theorem readSites_eq (c : Command) : readSites c = pure c.readSites := by
  rw [readSites, form?_eq, pure_bind]
  rfl

/-- Every register that is read, those of the operands first. -/
def uses (c : Command) : Attempt (List Reg) := do
  let sites ← readSites c
  let form ← form? c
  let returns ← isReturn c
  return (sites.map (·.reg) ++ (form.elim [] (·.impliedUses)) ++
    if returns then Reg.results ++ Reg.calleeSaved else []).eraseDups

@[simp] theorem uses_eq (c : Command) : uses c = pure c.uses := by
  simp only [uses, readSites_eq, form?_eq, isReturn_eq, pure_bind]
  rfl

/-- Reads `target` at a position where a register is read. -/
def redirect (target : Reg) (args : List Operand) (site : ReadSite) : Attempt (List Operand) := do
  let o ← index args site.index
  store args site.index (o.withBase target)

/-- Reads `target` wherever an operand read `source`, one operand after the other. -/
def renameReads (c : Command) (source target : Reg) : Attempt Command := do
  let sites ← readSites c
  let args ← (sites.filter (·.reg = source)).foldlM (redirect target) c.args
  return { c with args }

theorem redirect_eq {target : Reg} {args : List Operand} {site : ReadSite} {o : Operand}
    (here : args[site.index]? = some o) :
    redirect target args site = pure (args.set site.index (o.withBase target)) := by
  rw [redirect, index_eq here, pure_bind, store_eq (List.getElem?_eq_some_iff.1 here).1]

/-- Changing one operand after the other changes all of them. -/
theorem foldlM_redirect (target : Reg) (sites : List ReadSite) (args : List Operand)
    (inside : ∀ site ∈ sites, site.index < args.length) :
    ∃ args', sites.foldlM (redirect target) args = pure args' ∧ ∀ i, args'[i]? =
      args[i]?.map fun o => if i ∈ sites.map (·.index) then o.withBase target else o := by
  induction sites generalizing args with
  | nil => exact ⟨args, rfl, by simp⟩
  | cons site sites ih =>
    obtain ⟨here, later⟩ := List.forall_mem_cons.1 inside
    have first : redirect target args site = _ := redirect_eq (List.getElem?_eq_getElem here)
    obtain ⟨args', changed, each⟩ :=
      ih (args.set site.index (args[site.index].withBase target)) (by simpa using later)
    refine ⟨args', by rw [List.foldlM_cons, first, pure_bind, changed], fun i => ?_⟩
    rw [each, List.getElem?_set]
    by_cases same : site.index = i
    · subst same
      have twice (o : Operand) : (o.withBase target).withBase target = o.withBase target := by
        cases o <;> rfl
      simp [here, twice]
    · simp [same, Ne.symm same]

@[simp] theorem renameReads_eq (c : Command) (source target : Reg) :
    renameReads c source target = pure (c.renameReads source target) := by
  obtain ⟨args, changed, each⟩ := foldlM_redirect target
    (c.readSites.filter (·.reg = source)) c.args fun site member => by
      obtain ⟨o, here, -⟩ := Command.mem_readSites.1 (List.mem_filter.1 member).1
      exact (List.getElem?_eq_some_iff.1 here).1
  suffices same : args = (c.renameReads source target).args by
    rw [renameReads, readSites_eq, pure_bind, changed, pure_bind, same]
    rfl
  refine List.ext_getElem? fun i => ?_
  rw [each, Command.getElem?_renameReads]
  refine Option.map_congr fun o here => ?_
  have read : i ∈ (c.readSites.filter (·.reg = source)).map (·.index) ↔
      Command.readAt? c.form? i o = some source := by
    simp only [List.mem_map, List.mem_filter, Command.mem_readSites, decide_eq_true_eq]
    constructor
    · rintro ⟨site, ⟨⟨o', there, reads⟩, rfl⟩, rfl⟩
      rw [here] at there
      obtain rfl := Option.some.inj there
      exact reads
    · exact fun reads => ⟨⟨i, source⟩, ⟨⟨o, here, reads⟩, rfl⟩, rfl⟩
  simp [read]

/-! ## Instructions -/

variable {α : Type}

/-- Asks the command of an instruction. What is no command has the answer `otherwise`. -/
def ask (otherwise : α) (question : Command → Attempt α) (p : Instr) : Attempt α :=
  match p.command? with
  | some c => question c
  | none => pure otherwise

theorem ask_eq {otherwise : α} {question : Command → Attempt α} {answer : Command → α}
    (answers : ∀ c, question c = pure (answer c)) (p : Instr) :
    ask otherwise question p = pure (p.command?.elim otherwise answer) := by
  unfold ask
  cases p.command? with
  | none => rfl
  | some c => exact answers c

/-- The registers that the instruction definitely writes. -/
def defsOf (p : Instr) : Attempt (List Reg) := ask [] defs p

@[simp] theorem defsOf_eq (p : Instr) : defsOf p = pure p.defs := ask_eq defs_eq p

/-- The registers that the instruction may write. -/
def clobbersOf (p : Instr) : Attempt (List Reg) := ask [] clobbers p

@[simp] theorem clobbersOf_eq (p : Instr) : clobbersOf p = pure p.clobbers := ask_eq clobbers_eq p

/-- The registers that the instruction reads. -/
def usesOf (p : Instr) : Attempt (List Reg) := ask [] uses p

@[simp] theorem usesOf_eq (p : Instr) : usesOf p = pure p.uses := ask_eq uses_eq p

/-- The operand positions where the instruction reads a register. -/
def readSitesOf (p : Instr) : Attempt (List ReadSite) := ask [] readSites p

@[simp] theorem readSitesOf_eq (p : Instr) : readSitesOf p = pure p.readSites :=
  ask_eq readSites_eq p

/-- Destination and source, if the instruction is a plain register copy. -/
def copyOf? (p : Instr) : Attempt (Option (Reg × Reg)) := ask none copy? p

@[simp] theorem copyOf?_eq (p : Instr) : copyOf? p = pure p.copy? := by
  rw [copyOf?, ask_eq copy?_eq, Instr.copy?]
  cases p.command? <;> rfl

/-- The label that the instruction jumps to directly. -/
def targetOf? (p : Instr) : Attempt (Option String) := ask none target? p

@[simp] theorem targetOf?_eq (p : Instr) : targetOf? p = pure p.target? := by
  rw [targetOf?, ask_eq target?_eq, Instr.target?]
  cases p.command? <;> rfl

end Attempt

end MipsFlow
