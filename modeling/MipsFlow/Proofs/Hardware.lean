import MipsFlow.Proofs.Alu
import MipsFlow.Proofs.Execution
import MipsFlow.Proofs.Words

/-!
# A machine that can stop

The machine of the known commands. Literals, copies, calculations, products and divisions, and the
traffic with the multiplier's registers do what arithmetic says (`Alu`), with the operands that a
command has: registers, literals, or symbols. A signed result that does not fit stops the program.

All else is a parameter, the `Hardware`: the addresses of symbols; what loads and stores of each
width make of memory, so that a store may change whatever a later load sees, except that a stored
word can be loaded again from where it was stored; what becomes of a calculation without a result;
where jumps go; and what any other command does, a call or a request to the system among them, to
memory and to the registers that it may write.

`Hardware.step` is one command, and `run` is straight-line code with the decision of its last jump.
-/

namespace MipsFlow

/-- Why a program stops. -/
inductive Trap where
  /-- A signed number does not fit a word. -/
  | overflow
  /-- A calculation has no result. -/
  | undefined
  /-- What happened is up to the machine. -/
  | other
deriving DecidableEq, Repr

/-- What a machine decides for itself. -/
structure Hardware (M : Type) where
  /-- The address of a symbol. -/
  symbol : String → Word
  /-- What a load finds at an address. -/
  load : Opcode → Word → M → Word
  /-- What a store of a word at an address makes of memory. -/
  store : Opcode → Word → Word → M → M
  load_store : ∀ (address word : Word) (mem : M),
    load .lw address (store .sw address word mem) = word
  /-- What a calculation without a result gives, unless it stops the program. -/
  undefined : Opcode → Word → Word → Option Word
  /-- What a division without a result leaves in the multiplier, high word first. -/
  remains : Opcode → Word → Word → Word × Word
  /-- What any other command does, unless it stops the program. -/
  other : Command → MachineState Word M → Option (MachineState Word M)
  /-- The block that a jump at the end of the given block goes to. -/
  goes : Nat → Command → MachineState Word M → Option Nat

/-- The operation of the multiplier and its operands. -/
def Command.multiplies? (c : Command) : Option (Opcode × Operand × Operand) :=
  match c.op?, c.args with
  | some .mult, [x, y] => some (.mult, x, y)
  | some .multu, [x, y] => some (.multu, x, y)
  | some op, [x, y] | some op, [_, x, y] =>
    if c.isMultiplierDivision then some (op, x, y) else none
  | _, _ => none

namespace Hardware

variable {M : Type} (H : Hardware M)

/-! ## Commands -/

/-- The distance of a memory place from its base. -/
def distance : Offset → Word
  | .number n => .ofImm n
  | .symbol text => H.symbol text

/-- The address of a memory place. -/
def address (s : MachineState Word M) (offset : Offset) (base : Reg) : Word :=
  s.read 0 base + H.distance offset

/-- The word of an operand. -/
def value (s : MachineState Word M) : Operand → Word
  | .reg r => s.read 0 r
  | .imm n => .ofImm n
  | .mem offset base => H.address s offset base
  | .sym text => H.symbol text

/-- The word that a calculation gives, unless it stops the program. -/
def settle (op : Opcode) (x y : Word) : Alu.Calculation → Except Trap Word
  | .word w => .ok w
  | .overflow => .error .overflow
  | .undefined => (H.undefined op x y).elim (.error .undefined) .ok

/-- The register that a command assigns, and the word, unless it stops the program. -/
def assigns? (c : Command) (s : MachineState Word M) : Option (Reg × Except Trap Word) :=
  if c.isMultiplierDivision then none
  else
    match c.op?, c.args with
    | some .li, [.reg d, x] | some .move, [.reg d, x] => some (d, .ok (H.value s x))
    | some .lui, [.reg d, x] => some (d, .ok (H.value s x <<< 16))
    | some .mflo, [.reg d] => some (d, .ok (s.regs .lo))
    | some .mfhi, [.reg d] => some (d, .ok (s.regs .hi))
    | some .mtlo, [x] => some (.lo, .ok (H.value s x))
    | some .mthi, [x] => some (.hi, .ok (H.value s x))
    | some op, [.reg d, .mem offset base] =>
      if op.has .load then some (d, .ok (H.load op (H.address s offset base) s.mem)) else none
    | some op, [.reg d, x] =>
      let held := s.read 0 d
      let x := H.value s x
      ((Alu.unary? op x).or (Alu.binary? op held x)).map fun result =>
        (d, H.settle op held x result)
    | some op, [.reg d, x, y] =>
      let x := H.value s x
      let y := H.value s y
      (Alu.binary? op x y).map fun result => (d, H.settle op x y result)
    | _, _ => none

/-- What a command leaves in the multiplier's registers. -/
def multiplies? (c : Command) (s : MachineState Word M) : Option (Word × Word) :=
  c.multiplies?.map fun (op, x, y) =>
    (Alu.multiplier? op (H.value s x) (H.value s y)).getD
      (H.remains op (H.value s x) (H.value s y))

/-- What a store makes of memory. -/
def stores? (c : Command) (s : MachineState Word M) : Option M :=
  match c.op?, c.args with
  | some op, [x, .mem offset base] =>
    if op.has .store then some (H.store op (H.address s offset base) (H.value s x) s.mem) else none
  | _, _ => none

/-- What the hardware makes of any other command, within what the command may write. -/
def others (c : Command) (s : MachineState Word M) : Option (MachineState Word M) :=
  (H.other c s).map fun t =>
    { regs := fun r => if r ∈ c.clobbers ∧ ¬ r.isZero then t.regs r else s.regs r
      mem := if c.writesMemory then t.mem else s.mem }

/-- The state after a command, or why and in which state it stops the program. -/
def step (c : Command) (s : MachineState Word M) :
    Except (Trap × MachineState Word M) (MachineState Word M) :=
  match H.assigns? c s with
  | some (d, .ok word) => .ok (s.set d word)
  | some (_, .error trap) => .error (trap, s)
  | none =>
    match H.multiplies? c s with
    | some (hi, lo) => .ok ((s.set .hi hi).set .lo lo)
    | none =>
      match H.stores? c s with
      | some mem => .ok { s with mem }
      | none => (H.others c s).elim (.error (.other, s)) .ok

/-! ## Code -/

/-- Runs straight-line code, in the given block. Gives the state behind it, and the decision of the
last jump, if there was one even before; or else why and in which state the program stops. -/
def runFrom (here : Nat) : List Instr → MachineState Word M → Option (Option Nat) →
    Except (Trap × MachineState Word M) (MachineState Word M × Option (Option Nat))
  | [], s, decision => .ok (s, decision)
  | p :: rest, s, decision =>
    match p.command? with
    | none => runFrom here rest s decision
    | some c =>
      match H.step c s with
      | .ok t => runFrom here rest t (if c.isJump then some (H.goes here c s) else decision)
      | .error stop => .error stop

/-- Runs the code of a block. -/
def run (here : Nat) (code : List Instr) (s : MachineState Word M) :
    Except (Trap × MachineState Word M) (MachineState Word M × Option (Option Nat)) :=
  H.runFrom here code s none

/-- Hardware with a memory of words, where symbols stand for zero, a calculation without a result
stops the program, and other commands do nothing. -/
def ofWords (goes : Nat → Command → MachineState Word Memory → Option Nat) : Hardware Memory where
  symbol _ := 0
  load _ address mem := mem address
  store _ address word mem := fun a => if a = address then word else mem a
  load_store := by simp
  undefined _ _ _ := none
  remains _ _ _ := (0, 0)
  other _ s := some s
  goes

/-! ## What a command does -/

section Effects

variable {H} {c : Command} {op : Opcode} {s : MachineState Word M} {d : Reg} {x y : Operand}
  {w : Word}

theorem step_of_assigns? (assigns : H.assigns? c s = some (d, .ok w)) :
    H.step c s = .ok (s.set d w) := by
  rw [step, assigns]

theorem step_loadImm (n : Int64) : H.step (.loadImm d n) s = .ok (s.set d (.ofImm n)) := rfl

theorem step_copy (src : Reg) : H.step (.copy d src) s = .ok (s.set d (s.read 0 src)) := rfl

/-- A calculation with one operand. -/
theorem step_unary (isOp : c.op? = some op) (args : c.args = [.reg d, x])
    (value : ∀ offset base, x ≠ .mem offset base)
    (calculates : Alu.unary? op (H.value s x) = some (.word w)) :
    H.step c s = .ok (s.set d w) := by
  have isUnary : op = .negu ∨ op = .neg ∨ op = .not := by
    cases op <;> simp [Alu.unary?] at calculates ⊢
  have plain : c.isMultiplierDivision = false :=
    Command.isMultiplierDivision_eq_false isOp (by rcases isUnary with rfl | rfl | rfl <;> decide)
  refine step_of_assigns? ?_
  rw [assigns?, plain, isOp, args]
  cases x with
  | mem offset base => exact absurd rfl (value offset base)
  | _ => rcases isUnary with rfl | rfl | rfl <;> simp [calculates, settle]

/-- A calculation with two operands. -/
theorem step_binary (isOp : c.op? = some op) (args : c.args = [.reg d, x, y])
    (plain : c.isMultiplierDivision = false)
    (calculates : Alu.binary? op (H.value s x) (H.value s y) = some (.word w)) :
    H.step c s = .ok (s.set d w) := by
  refine step_of_assigns? ?_
  rw [assigns?, plain, isOp, args]
  simp [calculates, settle]

theorem op_of_multiplies? (multiplies : c.multiplies? = some (op, x, y)) :
    c.op? = some op ∧ ((op = .mult ∨ op = .multu) ∧ c.args = [x, y] ∨
      c.isMultiplierDivision = true ∧ c.args.drop (c.args.length - 2) = [x, y]) := by
  unfold Command.multiplies? at multiplies
  split at multiplies
  case h_1 isOp args =>
    cases multiplies
    exact ⟨isOp, Or.inl ⟨Or.inl rfl, args⟩⟩
  case h_2 isOp args =>
    cases multiplies
    exact ⟨isOp, Or.inl ⟨Or.inr rfl, args⟩⟩
  case h_3 isOp args | h_4 isOp args =>
    split at multiplies
    · next division =>
      cases multiplies
      exact ⟨isOp, Or.inr ⟨division, by rw [args]; rfl⟩⟩
    · contradiction
  case h_5 => contradiction

/-- What goes to the multiplier. -/
theorem step_multiplies (multiplies : c.multiplies? = some (op, x, y)) :
    let result := (Alu.multiplier? op (H.value s x) (H.value s y)).getD
      (H.remains op (H.value s x) (H.value s y))
    H.step c s = .ok ((s.set .hi result.1).set .lo result.2) := by
  have unassigned : H.assigns? c s = none := by
    obtain ⟨isOp, ⟨product, args⟩ | ⟨division, -⟩⟩ := op_of_multiplies? multiplies
    · rw [assigns?, isOp, args]
      rcases product with rfl | rfl <;> cases x <;> cases y <;>
        simp [Alu.unary?, Alu.binary?, Opcode.has, Opcode.traits]
    · rw [assigns?, division]
      rfl
  rw [step, unassigned, Hardware.multiplies?, multiplies]
  rfl

/-- A store of a word. -/
theorem step_store {offset : Offset} {base : Reg} (isOp : c.op? = some .sw)
    (args : c.args = [x, .mem offset base]) : H.step c s =
      .ok { s with mem := H.store .sw (H.address s offset base) (H.value s x) s.mem } := by
  have plain : c.isMultiplierDivision = false :=
    Command.isMultiplierDivision_eq_false isOp (by decide)
  have unassigned : H.assigns? c s = none := by
    rw [assigns?, plain, isOp, args]
    cases x <;> rfl
  have unmultiplied : H.multiplies? c s = none := by
    simp [Hardware.multiplies?, Command.multiplies?, isOp, args, plain]
  have stored : H.stores? c s =
      some (H.store .sw (H.address s offset base) (H.value s x) s.mem) := by
    rw [stores?, isOp, args]
    rfl
  rw [step, unassigned, unmultiplied, stored]

end Effects

/-! ## What a command leaves alone -/

section Frame

variable {H} {c : Command} {form : Form} {s t : MachineState Word M} {d r : Reg}
  {result : Except Trap Word}

/-- The families whose commands assign their first operand, unless they divide with two. -/
def assigning : List Family :=
  [.load, .fetch .lo, .fetch .hi, .unary, .arithmetic, .remainder, .divide]

theorem mem_defs_of_family {op : Opcode} {rest : List Operand} (known : c.form? = some form)
    (entry : op.family.form? c.args.length = some form) (family : op.family ∈ assigning)
    (undivided : op.family = .divide → c.args.length ≠ 2) (args : c.args = .reg d :: rest) :
    d ∈ c.defs := by
  have writes : form.defs = [0] := by
    unfold Family.form? at entry
    split at entry <;> cases entry <;> simp_all [assigning, Form.define, Form.fetch, Form.unary,
      Form.accumulate, Form.binary]
  refine Command.mem_defs.2 ⟨form, known, Or.inl ?_⟩
  simp [Command.regsAt, writes, args, Operand.reg?]

theorem assigning_of_load {op : Opcode} (loads : op.has .load = true) : op.family ∈ assigning := by
  revert loads
  cases op <;> decide

theorem assigning_of_unary? {op : Opcode} {x : Word} {result : Alu.Calculation}
    (calculates : Alu.unary? op x = some result) : op.family ∈ assigning := by
  cases op <;> simp [Alu.unary?] at calculates <;> decide

theorem assigning_of_binary? {op : Opcode} {x y : Word} {result : Alu.Calculation}
    (calculates : Alu.binary? op x y = some result) : op.family ∈ assigning := by
  cases op <;> simp [Alu.binary?] at calculates <;> decide

theorem eq_of_family_divide {op : Opcode} (divides : op.family = .divide) :
    op = .div ∨ op = .divu := by
  revert divides
  cases op <;> decide

/-- The register that a command assigns is one that it writes. -/
theorem mem_defs_of_assigns? (known : c.form? = some form)
    (assigns : H.assigns? c s = some (d, result)) : d ∈ c.defs := by
  unfold assigns? at assigns
  split at assigns
  · contradiction
  next plain =>
  have entry : ∀ op, c.op? = some op → op.family.form? c.args.length = some form := fun op isOp =>
    (Command.form?_of_op isOp (by simpa using plain)).symm.trans known
  -- with two operands, the quotient would go to the multiplier
  have undivided : ∀ op, c.op? = some op → op.family = .divide → c.args.length ≠ 2 := by
    intro op isOp divides two
    refine plain ?_
    match args : c.args, two with
    | [_, _], _ =>
      rcases eq_of_family_divide divides with rfl | rfl <;>
        simp [Command.isMultiplierDivision, isOp, args]
  split at assigns
  case h_1 isOp args | h_2 isOp args | h_3 isOp args | h_4 isOp args | h_5 isOp args =>
    cases assigns
    exact mem_defs_of_family known (entry _ isOp) (by decide) (undivided _ isOp) args
  case h_6 isOp args | h_7 isOp args =>
    cases assigns
    have isForm := entry _ isOp
    rw [args] at isForm
    cases isForm
    exact Command.mem_defs.2 ⟨_, known, Or.inr (List.mem_singleton_self _)⟩
  case h_8 isOp args =>
    split at assigns
    · next loads =>
      cases assigns
      exact mem_defs_of_family known (entry _ isOp) (assigning_of_load loads) (undivided _ isOp)
        args
    · contradiction
  case h_9 isOp args =>
    obtain ⟨result, calculates, isPair⟩ := Option.map_eq_some_iff.1 assigns
    cases isPair
    refine mem_defs_of_family known (entry _ isOp) ?_ (undivided _ isOp) args
    rcases Option.or_eq_some_iff.1 calculates with one | ⟨-, two⟩
    · exact assigning_of_unary? one
    · exact assigning_of_binary? two
  case h_10 isOp args =>
    obtain ⟨result, calculates, isPair⟩ := Option.map_eq_some_iff.1 assigns
    cases isPair
    exact mem_defs_of_family known (entry _ isOp) (assigning_of_binary? calculates)
      (undivided _ isOp) args
  case h_11 => contradiction

/-- What goes to the multiplier writes both of its registers. -/
theorem mem_defs_of_multiplies? {operation : Opcode × Operand × Operand}
    (known : c.form? = some form) (multiplies : c.multiplies? = some operation) :
    .hi ∈ c.defs ∧ .lo ∈ c.defs := by
  have written : form.impliedDefs = [.hi, .lo] := by
    unfold Command.multiplies? at multiplies
    split at multiplies
    case h_1 isOp args | h_2 isOp args =>
      rw [Command.form?_of_op isOp (Command.isMultiplierDivision_eq_false isOp (by decide)),
        args] at known
      cases known
      rfl
    case h_3 isOp args =>
      split at multiplies
      · next division =>
        have divides : c.op? = some .div ∨ c.op? = some .divu := by
          simpa [Command.isMultiplierDivision, args] using division
        rcases divides with isDiv | isDiv <;>
        · simp only [Command.form?, division, args, isDiv] at known
          cases known
          rfl
      · contradiction
    case h_4 isOp args =>
      split at multiplies
      · next division =>
        simp only [Command.form?, division, args] at known
        cases known
        rfl
      · contradiction
    case h_5 => contradiction
  constructor
  · exact Command.mem_defs.2 ⟨form, known, Or.inr (by simp [written])⟩
  · exact Command.mem_defs.2 ⟨form, known, Or.inr (by simp [written])⟩

/-- What a command can do if it does not stop the program. -/
theorem step_cases (steps : H.step c s = .ok t) :
    (∃ d word, H.assigns? c s = some (d, .ok word) ∧ t = s.set d word) ∨
      (∃ hi lo, H.multiplies? c s = some (hi, lo) ∧ t = (s.set .hi hi).set .lo lo) ∨
      (∃ mem, H.stores? c s = some mem ∧ t = { s with mem }) ∨ H.others c s = some t := by
  unfold step at steps
  split at steps
  · next d word assigns =>
    cases steps
    exact Or.inl ⟨d, word, assigns, rfl⟩
  · contradiction
  · split at steps
    · next hi lo multiplies =>
      cases steps
      exact Or.inr (Or.inl ⟨hi, lo, multiplies, rfl⟩)
    · split at steps
      · next mem stores =>
        cases steps
        exact Or.inr (Or.inr (Or.inl ⟨mem, stores, rfl⟩))
      · cases other : H.others c s with
        | none => simp [other] at steps
        | some u =>
          rw [other, Option.elim_some, Except.ok.injEq] at steps
          exact Or.inr (Or.inr (Or.inr (congrArg some steps)))

/-- A command changes no register but those that it may write. -/
theorem regs_step (known : c.form? = some form) (steps : H.step c s = .ok t)
    (kept : r ∉ c.clobbers) : t.regs r = s.regs r := by
  have undefined : r ∉ c.defs := fun written => kept (Command.mem_clobbers_of_mem_defs written)
  rcases step_cases steps with
    ⟨d, word, assigns, rfl⟩ | ⟨hi, lo, multiplies, rfl⟩ | ⟨mem, -, rfl⟩ | others
  · refine MachineState.regs_set_of_ne ?_
    rintro rfl
    exact undefined (mem_defs_of_assigns? known assigns)
  · obtain ⟨operation, isOperation, -⟩ := Option.map_eq_some_iff.1 multiplies
    obtain ⟨high, low⟩ := mem_defs_of_multiplies? known isOperation
    rw [MachineState.regs_set_of_ne (ne_of_mem_of_not_mem low undefined).symm,
      MachineState.regs_set_of_ne (ne_of_mem_of_not_mem high undefined).symm]
  · rfl
  · obtain ⟨u, -, rfl⟩ := Option.map_eq_some_iff.1 others
    simp [kept]

/-- Only stores and code out of sight change memory. -/
theorem mem_step (steps : H.step c s = .ok t) (keeps : c.isStore = false)
    (stays : c.leavesCode = false) : t.mem = s.mem := by
  rcases step_cases steps with
    ⟨d, word, -, rfl⟩ | ⟨hi, lo, -, rfl⟩ | ⟨mem, stores, rfl⟩ | others
  · rfl
  · rfl
  · unfold stores? at stores
    split at stores
    case h_1 isOp _ =>
      rw [Command.isStore, Command.has_of_op? isOp] at keeps
      simp [keeps] at stores
    case h_2 => contradiction
  · obtain ⟨u, -, rfl⟩ := Option.map_eq_some_iff.1 others
    simp [Command.writesMemory, keeps, stays]

end Frame

end Hardware

end MipsFlow
