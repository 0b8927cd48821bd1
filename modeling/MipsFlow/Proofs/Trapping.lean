import MipsFlow.Proofs.Control
import MipsFlow.Proofs.FoldingPass
import MipsFlow.Proofs.GuardedPeephole
import MipsFlow.Proofs.Semantics

/-!
# A machine with traps

The machine of `MipsFlow.Proofs.Machine`, extended by the operations that may stop a program: signed
sums, differences and negations that have to fit a word, and quotients and remainders with three
operands, which stop the program if the divisor is zero (`strict`). The quotient of the least word
by minus one does not fit a word either, but does not stop the program; it is the least word again.

`runTrapping` runs a flat program until it ends or stops. On the commands of the machine without
traps it is the run of that machine (`runTrapping_of_runs`).

`onward` is the same machine without its traps, as an interpretation: where a command does not stop
the program, both do the same, and whether a command overflows depends on its inputs (`Stepped`).
-/

namespace MipsFlow

namespace Machine

/-! ## The machine -/

/-- The operations on two values that may stop a program. -/
def trapping : List Opcode := [.add, .addi, .sub, .div, .divu, .rem, .remu]

/-- The machine with traps runs the command. -/
inductive Admitted : Command → Prop
  | understood {c : Command} : Understood c → Admitted c
  | calculate (op : Opcode) (d : Reg) (x y : Operand) : op ∈ trapping → Target d → Source x →
    Source y → Admitted (.ofOpcode op [.reg d, x, y])
  | negate (d : Reg) (x : Operand) : Target d → Source x → Admitted (.ofOpcode .neg [.reg d, x])

/-- If the instruction is a command, the machine with traps runs it. -/
def Admits (p : Instr) : Prop := ∀ c, p.command? = some c → Admitted c

/-- The machine with traps, as hardware. -/
def strict (places : String → Option Nat) : Hardware Memory :=
  hardwareWith (fun op x y => if y = 0 then none else some (if op = .div then x else 0)) places

/-- Runs the instructions of a list, which is a part of `code` to its end, for at most so many
steps. Gives the state at a return or at the end, or why the program has stopped. -/
def runTrapping (code : List Instr) : Nat → List Instr → State → Option (Except Trap State)
  | 0, _, _ => none
  | _ + 1, [], s => some (.ok s)
  | fuel + 1, p :: rest, s =>
    match p.command? with
    | none => runTrapping code fuel rest s
    | some c =>
      if c.isReturn then some (.ok s)
      else
        match goesTo? c s with
        | some label => runTrapping code fuel (behind label code) s
        | none =>
          match (strict fun _ => none).step c s with
          | .ok t => runTrapping code fuel rest t
          | .error (trap, _) => some (.error trap)

/-- The program, started in the state, stops for the reason. -/
def Traps (code : List Instr) (s : State) (trap : Trap) : Prop :=
  ∃ fuel, runTrapping code fuel code s = some (.error trap)

/-- Why a run has stopped. -/
def error? : Except Trap State → Option Trap
  | .ok _ => none
  | .error trap => some trap

variable {places : String → Option Nat} {c : Command} {s t : State} {op : Opcode} {d : Reg}
variable {x y : Operand} {p : Instr}

theorem Traps.of_error? {code : List Instr} {fuel : Nat} {trap : Trap}
    (stops : (runTrapping code fuel code s).bind error? = some trap) : Traps code s trap := by
  obtain ⟨r, ran, isError⟩ := Option.bind_eq_some_iff.1 stops
  cases r with
  | ok t => contradiction
  | error cause =>
    cases isError
    exact ⟨fuel, ran⟩

theorem step_strict (understood : Understood c) : (strict places).step c s = .ok (step c s) :=
  step_hardwareWith understood

/-- On the commands of the machine without traps, nothing is new. -/
theorem runTrapping_of_runs {code rest : List Instr} (runs : ∀ p ∈ code, Runs p)
    (suffix : rest <:+ code) (fuel : Nat) (s : State) :
    runTrapping code fuel rest s = (run code fuel rest s).map .ok := by
  induction fuel generalizing rest s with
  | zero => rfl
  | succ fuel ih =>
    cases rest with
    | nil => rfl
    | cons p rest =>
      obtain ⟨member, later⟩ := Control.suffix_of_cons suffix
      rw [runTrapping, run]
      cases command : p.command? with
      | none => exact ih later s
      | some c =>
        simp only [step_strict (runs p member c command)]
        cases c.isReturn with
        | true => rfl
        | false =>
          cases goesTo? c s with
          | none => exact ih later _
          | some label => exact ih (List.dropWhile_suffix _) s

/-! ## The commands -/

theorem admits_of_command (command : p.command? = some c) (admitted : Admitted c) : Admits p := by
  intro d isCommand
  rw [command] at isCommand
  cases isCommand
  exact admitted

/-- What may stop the program writes its first operand, and reads the others. -/
theorem form?_of_mem_trapping (member : op ∈ trapping) (target : Target d) (x y : Operand) :
    (Command.ofOpcode op [.reg d, x, y]).form? = some .binary := by
  rw [Command.form?_ofOpcode target.2]
  simp only [trapping, List.mem_cons, List.not_mem_nil, or_false] at member
  rcases member with rfl | rfl | rfl | rfl | rfl | rfl | rfl <;> rfl

theorem has_of_mem_trapping (member : op ∈ trapping) :
    op.has .jump = false ∧ op.has .store = false ∧ op.has .call = false ∧
      op.has .barrier = false := by
  simp only [trapping, List.mem_cons, List.not_mem_nil, or_false] at member
  rcases member with rfl | rfl | rfl | rfl | rfl | rfl | rfl <;> decide

theorem silent_of_mem_trapping (member : op ∈ trapping) (args : List Operand) :
    (Command.ofOpcode op args).writesMemory = false := by
  obtain ⟨-, store, call, barrier⟩ := has_of_mem_trapping member
  simp only [Command.writesMemory, Command.isStore, Command.leavesCode,
    Command.has_of_op? (Command.op?_ofOpcode op args), store, call, barrier, Bool.or_false]

namespace Admitted

/-- Jumps of the machine with traps are those of the machine without. -/
theorem understood_of_isJump (admitted : Admitted c) (jumps : c.isJump = true) : Understood c := by
  cases admitted with
  | understood understood => exact understood
  | calculate op d x y member =>
    rw [Command.isJump, Command.has_of_op? (Command.op?_ofOpcode op _),
      (has_of_mem_trapping member).1] at jumps
    contradiction
  | negate d x => exact absurd jumps Bool.false_ne_true

theorem known (admitted : Admitted c) :
    c.isForeign = false ∧ c.leavesCode = false ∧ c.isSeparate = true := by
  cases admitted with
  | understood understood => exact understood.known
  | calculate op d x y member target =>
    have form := form?_of_mem_trapping member target x y
    obtain ⟨-, -, call, barrier⟩ := has_of_mem_trapping member
    have isOp := Command.op?_ofOpcode op [.reg d, x, y]
    refine ⟨Command.isForeign_eq_false.2 ⟨_, form⟩, ?_, ?_⟩
    · rw [Command.leavesCode, Command.has_of_op? isOp, Command.has_of_op? isOp, call, barrier]
      rfl
    · rw [Command.isSeparate, form]
      rfl
  | negate d x => exact ⟨rfl, rfl, rfl⟩

end Admitted

theorem Admits.isKnown (admits : Admits p) : p.isKnown = true := by
  unfold Instr.isKnown
  cases command : p.command? with
  | none => rfl
  | some c => simp [(admits c command).known.1]

/-! ## Without the traps -/

/-- The machine with traps, going on where it would stop. -/
def onward (places : String → Option Nat) : Interpretation Word Memory :=
  { meaning places with
    result := fun i =>
      match i.op?, i.operands with
      | some .div, [_, x, y] =>
        if Word.divisionOverflows x.word y.word then x.word else Words.result i
      | _, _ => Words.result i }

theorem result_onward {i : Inputs Word Memory} (other : i.op? ≠ some .div) :
    (onward places).result i = Words.result i := by
  show (match i.op?, i.operands with
    | some .div, [_, x, y] =>
      if Word.divisionOverflows x.word y.word then x.word else Words.result i
    | _, _ => Words.result i) = Words.result i
  split
  · next isDiv _ => exact absurd isDiv other
  · rfl

theorem exec_onward (other : c.op? ≠ some .div) :
    (onward places).exec c s = (meaning places).exec c s := by
  have same : ∀ form r,
      (onward places).written c form s r = (meaning places).written c form s r := by
    intro form r
    unfold Interpretation.written
    rw [result_onward (i := (onward places).inputs c s) other]
    rfl
  unfold Interpretation.exec
  split
  · simp only [same]
    rfl
  · rfl

theorem op?_of_understood (understood : Understood c) : c.op? ≠ some .div := by
  cases understood with
  | compute op d x y member =>
    intro isDiv
    obtain rfl : op = .div := Option.some.inj isDiv
    exact absurd member (by decide)
  | branch op x y label isBranch => rcases isBranch with rfl | rfl <;> exact nofun
  | ret op isJump => rcases isJump with rfl | rfl <;> exact nofun
  | _ => exact nofun

/-- What the machine without traps runs does not stop the program by the table either. -/
theorem not_trap_of_understood (understood : Understood c) (isOp : c.op? = some op) :
    ¬ op.has .trap = true := by
  cases understood with
  | compute other _ _ _ member =>
    obtain rfl : other = op := Option.some.inj isOp
    revert member
    cases other <;> decide
  | branch _ _ _ _ isBranch =>
    obtain rfl := Option.some.inj isOp
    rcases isBranch with rfl | rfl <;> decide
  | ret _ isJump =>
    obtain rfl := Option.some.inj isOp
    rcases isJump with rfl | rfl <;> decide
  | _ =>
    obtain rfl := Option.some.inj isOp
    decide

theorem word_seenAt_onward {form? : Option Form} {i : Nat} (source : Source x)
    (read : form?.all (·.uses.contains i) = true) :
    ((onward places).seenAt form? s i x).word = value s x :=
  show ((meaning places).seenAt form? s i x).word = value s x from word_seenAt source read

/-- The inputs are those of the calculation of a signed number that does not fit a word. -/
def Overflows (i : Inputs Word Memory) : Prop :=
  match i.op?, i.operands with
  | some op, [_, x] => Alu.unary? op x.word = some .overflow
  | some op, [_, x, y] => Alu.binary? op x.word y.word = some .overflow
  | _, _ => False

/-- Only commands overflow that may stop a program by the table. -/
theorem has_trap_of_overflows {i : Inputs Word Memory} (overflows : Overflows i) :
    ∃ op, i.op? = some op ∧ op.has .trap = true := by
  unfold Overflows at overflows
  split at overflows
  case h_1 op _ x isOp _ =>
    refine ⟨op, isOp, ?_⟩
    cases op <;> first | rfl | simp [Alu.unary?] at overflows
  case h_2 op _ x y isOp _ =>
    refine ⟨op, isOp, ?_⟩
    -- a division has no result, or one that fits
    cases op <;> first
      | rfl
      | (simp only [Alu.binary?, Option.some.injEq] at overflows
         split at overflows <;> contradiction)
      | simp [Alu.binary?, Alu.truth] at overflows
  case h_3 => exact overflows.elim

/-! ## One command -/

/-- How the machine with traps goes through a command: as it would without traps, or it stops. -/
inductive Stepped (places : String → Option Nat) (c : Command) (s : State) : Prop
  | goes : (strict places).step c s = .ok ((onward places).exec c s) →
    ¬ Overflows ((onward places).inputs c s) → Stepped places c s
  | stops (trap : Trap) : (strict places).step c s = .error (trap, s) →
    (trap = .overflow → Overflows ((onward places).inputs c s)) → Stepped places c s

/-- What the machine without traps computes in the place of a calculation. -/
theorem exec_calculate (member : op ∈ trapping) (target : Target d) (left : Source x)
    (right : Source y) :
    (onward places).exec (.ofOpcode op [.reg d, x, y]) s = s.set d
      (if op = .div ∧ Word.divisionOverflows (value s x) (value s y) = true then value s x
        else (Word.binary? op (value s x) (value s y)).getD 0) := by
  have form := form?_of_mem_trapping member target x y
  have first : ((onward places).seenAt (some .binary) s 1 x).word = value s x :=
    word_seenAt_onward left rfl
  have second : ((onward places).seenAt (some .binary) s 2 y).word = value s y :=
    word_seenAt_onward right rfl
  rw [(onward places).exec_of_single (r := d) form (silent_of_mem_trapping member _) rfl]
  refine congrArg (s.set d) ?_
  rw [← first, ← second]
  simp only [Interpretation.inputs, Interpretation.seen, form]
  by_cases isDiv : op = .div
  · subst isDiv
    simp only [true_and]
    exact (Words.result_three ..) ▸ rfl
  · rw [if_neg fun both => isDiv both.1]
    exact (result_onward fun same => isDiv (Option.some.inj same)).trans (Words.result_three ..)

/-- A calculation with three operands. -/
theorem assigns?_calculate (target : Target d) (left : Source x)
    (right : Source y) {result : Alu.Calculation}
    (calculates : Alu.binary? op (value s x) (value s y) = some result) :
    (strict places).assigns? (.ofOpcode op [.reg d, x, y]) s =
      some (d, (strict places).settle op (value s x) (value s y) result) := by
  have first : (strict places).value s x = value s x := value_hardware left
  have second : (strict places).value s y = value s y := value_hardware right
  have plain : (Command.ofOpcode op [.reg d, x, y]).isMultiplierDivision = false := by
    have nonzero : d ≠ Reg.zero := by simpa [Reg.isZero] using target.2
    simp [Command.isMultiplierDivision, Command.ofOpcode, Operand.isReg, Operand.reg?, nonzero]
  rw [Hardware.assigns?, plain, Command.op?_ofOpcode]
  simp [Command.ofOpcode, first, second, calculates]

theorem overflows_calculate (member : op ∈ trapping) (target : Target d) (left : Source x)
    (right : Source y) :
    Overflows ((onward places).inputs (.ofOpcode op [.reg d, x, y]) s) ↔
      Alu.binary? op (value s x) (value s y) = some .overflow := by
  have form := form?_of_mem_trapping member target x y
  have first : ((onward places).seenAt (some .binary) s 1 x).word = value s x :=
    word_seenAt_onward left rfl
  have second : ((onward places).seenAt (some .binary) s 2 y).word = value s y :=
    word_seenAt_onward right rfl
  rw [← first, ← second]
  simp only [Interpretation.inputs, Interpretation.seen, form]
  rfl

/-- A calculation of the machine with traps is one with a word, overflows, or has no result. -/
theorem stepped_calculate (member : op ∈ trapping) (target : Target d) (left : Source x)
    (right : Source y) : Stepped places (.ofOpcode op [.reg d, x, y]) s := by
  have total : ∃ result, Alu.binary? op (value s x) (value s y) = some result := by
    simp only [trapping, List.mem_cons, List.not_mem_nil, or_false] at member
    rcases member with rfl | rfl | rfl | rfl | rfl | rfl | rfl <;> exact ⟨_, rfl⟩
  obtain ⟨result, calculates⟩ := total
  have assigns : (strict places).assigns? _ s = _ := assigns?_calculate target left right calculates
  have evaluates := Alu.binary?_eq op (value s x) (value s y)
  have overflows : Overflows ((onward places).inputs (.ofOpcode op [.reg d, x, y]) s) ↔ _ :=
    overflows_calculate member target left right
  rw [calculates, Option.bind_some] at evaluates
  rw [calculates, Option.some.injEq] at overflows
  cases result with
  | word w =>
    refine .goes ?_ (by simp [overflows])
    have fits : ¬ (op = .div ∧ Word.divisionOverflows (value s x) (value s y) = true) := by
      rintro ⟨rfl, wraps⟩
      simp [Word.binary?, wraps] at evaluates
    rw [Hardware.step_of_assigns? assigns, exec_calculate member target left right, if_neg fits,
      evaluates]
    rfl
  | overflow =>
    refine .stops .overflow ?_ fun _ => overflows.2 rfl
    rw [Hardware.step, assigns]
    rfl
  | undefined =>
    have settles : (strict places).settle op (value s x) (value s y) .undefined =
        if value s y = 0 then .error .undefined else .ok (if op = .div then value s x else 0) := by
      show ((strict places).undefined _ _ _).elim _ _ = _
      simp only [strict, hardwareWith]
      split <;> rfl
    rw [settles] at assigns
    by_cases zero : value s y = 0
    · refine .stops .undefined ?_ (by simp)
      rw [Hardware.step, assigns, if_pos zero]
    · refine .goes ?_ (by simp [overflows])
      rw [if_neg zero] at assigns
      rw [Hardware.step_of_assigns? assigns, exec_calculate member target left right, evaluates]
      by_cases isDiv : op = .div
      · subst isDiv
        have wraps : Word.divisionOverflows (value s x) (value s y) = true := by
          have undefined : Word.binary? .div (value s x) (value s y) = none := evaluates
          simp only [Word.binary?, ite_eq_left_iff, reduceCtorEq, imp_false,
            Decidable.not_not] at undefined
          exact undefined.resolve_left zero
        simp [wraps]
      · simp [isDiv]

theorem stepped_negate (source : Source x) :
    Stepped places (.ofOpcode .neg [.reg d, x]) s := by
  have word : ((onward places).seenAt (some .unary) s 1 x).word = value s x :=
    word_seenAt_onward source rfl
  have plain : x.isValue = true := by
    cases x with
    | mem _ _ => exact source.elim
    | _ => rfl
  have result : Words.result ((onward places).inputs (.ofOpcode .neg [.reg d, x]) s) =
      (Word.unary? .neg (value s x)).getD 0 := by
    rw [← word]
    exact @result_two places _ _ rfl _ _ _ plain _ _
  have executes : (onward places).exec (.ofOpcode .neg [.reg d, x]) s =
      s.set d ((Word.unary? .neg (value s x)).getD 0) := by
    rw [(onward places).exec_of_single (r := d) (show _ = some Form.unary from rfl) rfl rfl,
      ← result]
    exact congrArg (s.set d) (result_onward (by simp [Interpretation.inputs]))
  have assigns : (strict places).assigns? (.ofOpcode .neg [.reg d, x]) s =
      some (d, (strict places).settle .neg (s.read 0 d) (value s x)
        (Alu.signed (-(value s x).toInt))) := by
    rw [← show (strict places).value s x = value s x from value_hardware source]
    cases x with
    | mem _ _ => exact source.elim
    | _ => rfl
  have overflows : Overflows ((onward places).inputs (.ofOpcode .neg [.reg d, x]) s) ↔
      Alu.signed (-(value s x).toInt) = .overflow := by
    rw [← word]
    exact Option.some_inj
  have evaluates := Alu.unary?_eq .neg (value s x)
  rw [show Alu.unary? .neg (value s x) = some _ from rfl, Option.bind_some] at evaluates
  cases negated : Alu.signed (-(value s x).toInt) with
  | word w =>
    rw [negated] at assigns evaluates
    refine .goes ?_ (by simp [overflows, negated])
    rw [Hardware.step_of_assigns? assigns, executes, evaluates]
    rfl
  | overflow =>
    rw [negated] at assigns
    refine .stops .overflow ?_ fun _ => overflows.2 negated
    rw [Hardware.step, assigns]
    rfl
  | undefined =>
    unfold Alu.signed at negated
    split at negated <;> contradiction

/-- On the commands that it runs, the machine with traps does what it would do without them, or
stops. -/
theorem Admitted.stepped (admitted : Admitted c) : Stepped places c s := by
  cases admitted with
  | understood understood =>
    refine .goes ?_ fun overflows => ?_
    · rw [step_strict understood, exec_onward (op?_of_understood understood),
        exec_eq_step understood]
    · obtain ⟨op, isOp, traps⟩ := has_trap_of_overflows overflows
      exact absurd traps (not_trap_of_understood understood isOp)
  | calculate op d x y member target left right => exact stepped_calculate member target left right
  | negate d x target source => exact stepped_negate source

/-! ## Laws -/

theorem result_onward_cell {op : Opcode} {operands : List (Seen Word)} {named : List Word}
    {mem : Memory} (other : op ≠ .div) : (onward places).result ⟨some op, operands, named, mem⟩ =
      (meaning places).result ⟨some op, operands, named, mem⟩ :=
  result_onward fun same => other (Option.some.inj same)

theorem onward_addsOffsets (places : String → Option Nat) : (onward places).AddsOffsets := by
  have laws := wordsAddOffsets (goes places)
  refine ⟨⟨fun _ _ => rfl, fun op x mem shifts => ?_,
    fun store load x offset base mem undoes => ?_⟩,
    fun increment load x m n mem adds loads notAddress => ?_⟩
  · have other : op ≠ .div := by
      rintro rfl
      exact absurd shifts (by decide)
    rw [result_onward_cell other]
    exact laws.shift op x mem shifts
  · have other : load ≠ .div := by
      rintro rfl
      cases store <;> simp [Redundancy.matchingLoad?] at undoes
    rw [result_onward_cell other]
    exact laws.reload store load x offset base mem undoes
  · have other : load ≠ .div := by
      rintro rfl
      exact absurd loads (by decide)
    have other' : increment ≠ .div := by rcases adds with rfl | rfl <;> decide
    rw [result_onward_cell other, result_onward_cell other, result_onward_cell other']
    exact laws.offset increment load x m n mem adds loads notAddress

/-- What an operation makes of its operands. -/
def onwardResult (op : Opcode) : List (Seen Word) → Word
  | [x, y] =>
    if op = .div ∧ Word.divisionOverflows x.word y.word = true then x.word else resultOf op [x, y]
  | xs => resultOf op xs

theorem onwardResult_of_ne (other : op ≠ .div) (xs : List (Seen Word)) :
    onwardResult op xs = resultOf op xs := by
  unfold onwardResult
  split
  · exact if_neg fun both => other both.1
  · rfl

theorem exec_onward_computes {xs : List Operand} (s : State) (nonzero : d.isZero = false)
    (computes : op.Computes xs.length) (values : ∀ x ∈ xs, x.isValue = true) :
    (onward places).exec (.ofOpcode op (.reg d :: xs)) s =
      s.set d (onwardResult op (xs.map (s.sees 0))) := by
  by_cases isDiv : op = .div
  · subst isDiv
    obtain ⟨-, -, silent, -⟩ := Command.form_of_isPure (Command.isPure_of_computes nonzero computes)
    rcases Command.form_of_computes nonzero computes with ⟨x, rfl, -⟩ | ⟨x, y, rfl, form⟩
    · -- a division has two operands besides its destination
      rcases computes.form with ⟨-, unary⟩ | ⟨two, -⟩
      · exact absurd unary (by decide)
      · simp at two
    · have first : ((onward places).seenAt (some .binary) s 1 x).word = (s.sees 0 x).word :=
        @word_sees places _ _ _ _ (values x (by simp)) rfl
      have second : ((onward places).seenAt (some .binary) s 2 y).word = (s.sees 0 y).word :=
        @word_sees places _ _ _ _ (values y (by simp)) rfl
      rw [(onward places).exec_of_single form silent rfl]
      refine congrArg (s.set d) ?_
      show _ = if Opcode.div = .div ∧
          Word.divisionOverflows (s.sees 0 x).word (s.sees 0 y).word = true then (s.sees 0 x).word
        else (Word.binary? .div (s.sees 0 x).word (s.sees 0 y).word).getD 0
      rw [← first, ← second]
      simp only [Interpretation.inputs, Interpretation.seen, form, true_and]
      exact (Words.result_three ..) ▸ rfl
  · rw [onwardResult_of_ne isDiv,
      exec_onward (c := .ofOpcode op _) fun same => isDiv (Option.some.inj same)]
    exact exec_computes s nonzero computes values

/-- The machine that goes on keeps to the table. -/
def onwardSemantics (places : String → Option Nat) : Semantics Word Memory where
  zero := 0
  exec := (onward places).exec
  goes := (onward places).decide
  result := onwardResult
  frame _ kept := (onward places).regs_exec_of_not_mem_clobbers kept
  unread := (onward places).exec_unread (fun _ _ => rfl) fun _ _ _ _ => rfl
  computes := exec_onward_computes
  commutes {op xs ys} commutes perm := by
    have other : op ≠ .div := by
      rintro rfl
      exact absurd commutes (by decide)
    rw [onwardResult_of_ne other, onwardResult_of_ne other, resultOf_perm commutes perm]
  copies d r _ := (onward places).exec_copy (fun _ _ => rfl) d r

end Machine

end MipsFlow
