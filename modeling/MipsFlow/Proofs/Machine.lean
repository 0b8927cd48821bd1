import MipsFlow.Proofs.LiveFlow
import MipsFlow.Proofs.Renaming
import MipsFlow.Proofs.Words

/-!
# A machine for flat programs

The machine has registers of 32 bits, of which the zero register reads as zero, the multiplier's
result registers, and a memory of words. It runs a flat program from its first instruction until it
returns, or comes to the end. `Understood` are the commands that it runs: literals, copies, the
arithmetic that cannot stop the program, multiplication, loads and stores of words with numeric
offsets, branches on two values, jumps to labels, and returns.

On these commands the machine does what the interpretation over words does: `exec_eq_step`.
-/

namespace MipsFlow

namespace Machine

/-- The state of the machine. -/
abbrev State := MachineState Word Memory

/-! ## Commands -/

/-- The value of an operand. -/
def value (s : State) : Operand → Word
  | .reg r => if r.isZero then 0 else s.regs r
  | .imm n => .ofImm n
  | .mem _ _ | .sym _ => 0

/-- The address of a memory place. -/
def address (s : State) (offset : Int64) (base : Reg) : Word :=
  value s (.reg base) + .ofImm offset

/-- The result of an operation. -/
def compute? : Opcode → Word → Word → Option Word
  | .addu, x, y | .addiu, x, y => some (x + y)
  | .subu, x, y => some (x - y)
  | .and, x, y => some (x &&& y)
  | .or, x, y => some (x ||| y)
  | .xor, x, y => some (x ^^^ y)
  | .sll, x, y => some (x <<< (y.toNat % 32))
  | .slt, x, y => some (if x.slt y then 1 else 0)
  | _, _, _ => none

/-- The state after a command that does not transfer control. -/
def step (c : Command) (s : State) : State :=
  match c.op?, c.args with
  | some .li, [.reg d, x] | some .move, [.reg d, x] => s.set d (value s x)
  | some .mult, [x, y] =>
    let product := (value s x).signExtend 64 * (value s y).signExtend 64
    (s.set .hi (product.extractLsb' 32 32)).set .lo (product.setWidth 32)
  | some .mflo, [.reg d] => s.set d (s.regs .lo)
  | some .sw, [x, .mem (.number n) base] =>
    { s with mem := fun a => if a = address s n base then value s x else s.mem a }
  | some .lw, [.reg d, .mem (.number n) base] => s.set d (s.mem (address s n base))
  | some op, [.reg d, x, y] => (compute? op (value s x) (value s y)).elim s (s.set d)
  | _, _ => s

/-- The label that control goes to, if it does not go on behind the command. -/
def goesTo? (c : Command) (s : State) : Option String :=
  match c.op?, c.args with
  | some .beq, [x, y, .sym label] => if value s x = value s y then some label else none
  | some .bne, [x, y, .sym label] => if value s x ≠ value s y then some label else none
  | some .j, [.sym label] => some label
  | _, _ => none

/-! ## Programs -/

/-- The part of a program that starts with the label. -/
def behind (label : String) (code : List Instr) : List Instr :=
  code.dropWhile fun p => p.label? ≠ some label

/-- Runs the instructions of a list, which is a part of `code` to its end, for at most so many
steps. Gives the state at a return or at the end. -/
def run (code : List Instr) : Nat → List Instr → State → Option State
  | 0, _, _ => none
  | _ + 1, [], s => some s
  | fuel + 1, p :: rest, s =>
    match p.command? with
    | none => run code fuel rest s
    | some c =>
      if c.isReturn then some s
      else
        match goesTo? c s with
        | some label => run code fuel (behind label code) s
        | none => run code fuel rest (step c s)

/-- The program, started in the one state, ends in the other. -/
def Ends (code : List Instr) (s t : State) : Prop := ∃ fuel, run code fuel code s = some t

/-! ## The commands that the machine runs -/

/-- The register has a name, so that a source can mention it. -/
def Named (r : Reg) : Prop := r.isPseudo = false

/-- A named register other than the zero register. -/
def Target (r : Reg) : Prop := Named r ∧ r.isZero = false

/-- A named register or a literal. -/
def Source : Operand → Prop
  | .reg r => Named r
  | .imm _ => True
  | .mem _ _ | .sym _ => False

/-- The operations that compute a value from two others. -/
def operations : List Opcode := [.addu, .addiu, .subu, .and, .or, .xor, .sll, .slt]

/-- The machine runs the command. -/
inductive Understood : Command → Prop
  -- Only a literal is loaded: by the table of roles `li` reads no register, so nothing that goes by
  -- the table can tell what `li d, r` depends on.
  | literal (d : Reg) (n : Int64) : Target d → Understood (.ofOpcode .li [.reg d, .imm n])
  | move (d : Reg) (x : Operand) : Target d → Source x →
    Understood (.ofOpcode .move [.reg d, x])
  | compute (op : Opcode) (d : Reg) (x y : Operand) : op ∈ operations → Target d → Source x →
    Source y → Understood (.ofOpcode op [.reg d, x, y])
  | multiply (x y : Operand) : Source x → Source y → Understood (.ofOpcode .mult [x, y])
  | fetch (d : Reg) : Target d → Understood (.ofOpcode .mflo [.reg d])
  | store (x : Operand) (n : Int64) (base : Reg) : Source x → Named base →
    Understood (.ofOpcode .sw [x, .mem (.number n) base])
  | load (d : Reg) (n : Int64) (base : Reg) : Target d → Named base →
    Understood (.ofOpcode .lw [.reg d, .mem (.number n) base])
  | branch (op : Opcode) (x y : Operand) (label : String) : op = .beq ∨ op = .bne → Source x →
    Source y → Understood (.ofOpcode op [x, y, .sym label])
  | jump (label : String) : Understood (.ofOpcode .j [.sym label])
  | ret (op : Opcode) : op = .j ∨ op = .jr → Understood (.ofOpcode op [.reg Reg.link])

/-- If the instruction is a command, the machine runs it. -/
def Runs (p : Instr) : Prop := ∀ c, p.command? = some c → Understood c

/-! ## The machine as an interpretation -/

/-- Where a jump goes, by the places of the labels. -/
def goes (places : String → Option Nat) (here : Nat) (i : Inputs Word Memory) : Option Nat :=
  match i.op?, i.operands with
  | some .beq, [x, y, .symbol label] =>
    if x.word = y.word then places label else some (here + 1)
  | some .bne, [x, y, .symbol label] =>
    if x.word ≠ y.word then places label else some (here + 1)
  | some .j, [.symbol label] => places label
  | _, _ => none

/-- The interpretation of the commands of a graph, by the places of the labels. -/
def meaning (places : String → Option Nat) : Interpretation Word Memory :=
  Words.meaning (goes places)

variable {places : String → Option Nat} {c : Command} {s : State}

theorem word_seenAt {form? : Option Form} {i : Nat} {x : Operand} (source : Source x)
    (read : form?.all (·.uses.contains i) = true) :
    ((meaning places).seenAt form? s i x).word = value s x := by
  cases x with
  | reg r =>
    simp only [Interpretation.seenAt, read, if_true, Seen.word, Interpretation.read, value]
    rfl
  | imm n => rfl
  | mem _ _ => exact source.elim
  | sym _ => exact source.elim

/-- The machine runs known commands only, without code out of sight, and none of them reads an
operand that it writes. -/
theorem Understood.known (understood : Understood c) :
    c.isForeign = false ∧ c.leavesCode = false ∧ c.isSeparate = true := by
  cases understood with
  | compute op d x y member =>
    simp only [operations, List.mem_cons, List.not_mem_nil, or_false] at member
    rcases member with rfl | rfl | rfl | rfl | rfl | rfl | rfl | rfl <;> exact ⟨rfl, rfl, rfl⟩
  | branch op x y label isBranch => rcases isBranch with rfl | rfl <;> exact ⟨rfl, rfl, rfl⟩
  | ret op isJump => rcases isJump with rfl | rfl <;> exact ⟨rfl, rfl, rfl⟩
  | _ => exact ⟨rfl, rfl, rfl⟩

/-- The machine does what the interpretation over words does. -/
theorem exec_eq_step (understood : Understood c) : (meaning places).exec c s = step c s := by
  let I := meaning places
  cases understood with
  | literal d n =>
    exact I.exec_of_single (r := d) (show _ = some Form.define from rfl) rfl rfl
  | move d x _ source =>
    rw [show (meaning places).exec _ s = s.set d _ from
      I.exec_of_single (r := d) (show _ = some Form.unary from rfl) rfl rfl]
    exact congrArg (s.set d) (@word_seenAt places s (some .unary) 1 x source rfl)
  | compute op d x y member _ left right =>
    have first : (I.seenAt (some .binary) s 1 x).word = value s x := word_seenAt left rfl
    have second : (I.seenAt (some .binary) s 2 y).word = value s y := word_seenAt right rfl
    have result : ∀ mem, Words.result ⟨some op, [.unread, I.seenAt (some .binary) s 1 x,
        I.seenAt (some .binary) s 2 y], [], mem⟩ =
        (Word.binary? op (value s x) (value s y)).getD 0 := by
      intro mem
      rw [Words.result_three, first, second]
    simp only [operations, List.mem_cons, List.not_mem_nil, or_false] at member
    rcases member with rfl | rfl | rfl | rfl | rfl | rfl | rfl | rfl <;>
      exact (I.exec_of_single (r := d) (show _ = some Form.binary from rfl) rfl rfl).trans
        (congrArg (s.set d) (result s.mem))
  | multiply x y left right =>
    have first : (I.seenAt (some .multiplier) s 0 x).word = value s x := word_seenAt left rfl
    have second : (I.seenAt (some .multiplier) s 1 y).word = value s y := word_seenAt right rfl
    refine MachineState.ext (fun r => ?_) (I.mem_exec (show _ = some Form.multiplier from rfl) rfl)
    have stepped : (step (.ofOpcode .mult [x, y]) s).regs r =
        if r = .lo then (Words.product (I.inputs (.ofOpcode .mult [x, y]) s)).2
        else if r = .hi then (Words.product (I.inputs (.ofOpcode .mult [x, y]) s)).1
        else s.regs r := by
      simp only [step, Command.ofOpcode, Command.op?, Mnemonic.op?, MachineState.set, ← first,
        ← second, show Reg.lo.isZero = false from rfl, show Reg.hi.isZero = false from rfl,
        Bool.false_eq_true, not_false_eq_true, and_true]
      rfl
    rw [stepped]
    by_cases high : r = .hi
    · subst high
      rfl
    · by_cases low : r = .lo
      · subst low
        rfl
      · rw [if_neg low, if_neg high]
        refine I.regs_exec_of_not_mem_clobbers ?_
        rw [show Command.clobbers (.ofOpcode .mult [x, y]) = [.hi, .lo] from rfl]
        simp [high, low]
  | fetch d =>
    rw [show (meaning places).exec _ s = s.set d _ from
      I.exec_of_single (r := d) (show _ = some (Form.fetch .lo) from rfl) rfl rfl]
    rfl
  | store x n base source =>
    have first : (I.seenAt (some .use) s 0 x).word = value s x := word_seenAt source rfl
    refine MachineState.ext (fun r => I.regs_exec_of_not_mem_clobbers ?_) ?_
    · have nothing : Command.clobbers (.ofOpcode .sw [x, .mem (.number n) base]) = [] := rfl
      rw [nothing]
      exact List.not_mem_nil
    · simp only [step, Command.ofOpcode, Command.op?, Mnemonic.op?, ← first]
      rfl
  | load d n base =>
    rw [show (meaning places).exec _ s = s.set d _ from
      I.exec_of_single (r := d) (show _ = some Form.define from rfl) rfl rfl]
    rfl
  | branch op x y label isBranch =>
    rcases isBranch with rfl | rfl
    · have stays : step (.ofOpcode .beq [x, y, .sym label]) s = s := by cases x <;> rfl
      rw [stays]
      exact I.exec_of_no_defs (c := .ofOpcode .beq [x, y, .sym label])
        (show _ = some Form.useBoth from rfl) rfl rfl rfl
    · have stays : step (.ofOpcode .bne [x, y, .sym label]) s = s := by cases x <;> rfl
      rw [stays]
      exact I.exec_of_no_defs (c := .ofOpcode .bne [x, y, .sym label])
        (show _ = some Form.useBoth from rfl) rfl rfl rfl
  | jump label => exact I.exec_of_no_defs (show _ = some Form.use from rfl) rfl rfl rfl
  | ret op isJump =>
    rcases isJump with rfl | rfl <;>
      exact I.exec_of_no_defs (show _ = some Form.use from rfl) rfl rfl rfl

/-! ## Operations -/

/-- What the machine runs, and computes its first operand by the table, is an operation on two
values. -/
theorem Understood.of_computes {op : Opcode} {d : Reg} {xs : List Operand}
    (understood : Understood (.ofOpcode op (.reg d :: xs))) (computes : op.Computes xs.length) :
    ∃ x y, xs = [x, y] ∧ op ∈ operations ∧ Target d ∧ Source x ∧ Source y := by
  obtain ⟨arith, -, form⟩ := computes
  generalize isCommand : Command.ofOpcode op (.reg d :: xs) = c at understood
  cases understood with
  | compute op' d' x y member target left right =>
    cases isCommand
    exact ⟨x, y, rfl, member, target, left, right⟩
  | multiply x y =>
    cases isCommand
    -- a product goes to the multiplier's registers, not to an operand
    rcases form with ⟨-, unary⟩ | ⟨two, -⟩
    · exact absurd unary (by decide)
    · exact absurd two (by simp)
  | jump label => cases isCommand
  | branch op' x y label isBranch =>
    cases isCommand
    rcases isBranch with rfl | rfl <;> exact absurd arith (by decide)
  | ret op' isJump =>
    cases isCommand
    rcases isJump with rfl | rfl <;> exact absurd arith (by decide)
  | _ =>
    cases isCommand
    exact absurd arith (by decide)

theorem defs_compute {op : Opcode} {d : Reg} {x y : Operand} (member : op ∈ operations) :
    (Command.ofOpcode op [.reg d, x, y]).defs = [d] ∧
      (Command.ofOpcode op [.reg d, x, y]).isJump = false := by
  simp only [operations, List.mem_cons, List.not_mem_nil, or_false] at member
  rcases member with rfl | rfl | rfl | rfl | rfl | rfl | rfl | rfl <;> exact ⟨rfl, rfl⟩

theorem step_compute {s : State} {op : Opcode} {d : Reg} {x y : Operand}
    (member : op ∈ operations) : step (.ofOpcode op [.reg d, x, y]) s =
      s.set d ((compute? op (value s x) (value s y)).getD 0) := by
  simp only [operations, List.mem_cons, List.not_mem_nil, or_false] at member
  rcases member with rfl | rfl | rfl | rfl | rfl | rfl | rfl | rfl <;> rfl

end Machine

end MipsFlow
