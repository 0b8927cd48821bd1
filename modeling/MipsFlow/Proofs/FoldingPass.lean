import MipsFlow.Proofs.ConstantFolding
import MipsFlow.Proofs.Lightening

/-!
# Constant folding on the machine

A folded command writes what it wrote before, and reads no other registers. So the pass lightens the
code of a block (`folding_lightens`). The machine is hardware that never stops on the commands that
it runs (`step_hardware`), so folded code does there what it did before, and the machine runs it
again: the pass refits the code of a block (`folding_refits`).
-/

namespace MipsFlow

namespace Machine

variable {places : String → Option Nat} {c : Command} {s : State} {op : Opcode} {d x y : Reg}

/-! ## The machine as hardware -/

/-- The machine, as hardware. -/
def hardware (places : String → Option Nat) : Hardware Memory :=
  .ofWords (meaning places).decide

/-- The hardware of the machine, whatever a calculation without a result gives. -/
def hardwareWith (undefined : Opcode → Word → Word → Option Word) (places : String → Option Nat) :
    Hardware Memory :=
  { hardware places with undefined }

variable {undefined : Opcode → Word → Word → Option Word}

theorem value_hardware {x : Operand} (source : Source x) :
    (hardwareWith undefined places).value s x = value s x := by
  cases x with
  | reg r => rfl
  | imm n => rfl
  | mem _ _ => exact source.elim
  | sym _ => exact source.elim

theorem binary?_eq_compute? (member : op ∈ operations) (a b : Word) :
    Word.binary? op a b = some ((compute? op a b).getD 0) := by
  simp only [operations, List.mem_cons, List.not_mem_nil, or_false] at member
  rcases member with rfl | rfl | rfl | rfl | rfl | rfl | rfl | rfl <;> rfl

/-- The machine does what the hardware does. -/
theorem step_hardwareWith (understood : Understood c) :
    (hardwareWith undefined places).step c s = .ok (step c s) := by
  -- jumps leave the state alone
  have idles : ((hardwareWith undefined places).others c s).elim (.error (.other, s)) .ok =
      (.ok s : Except (Trap × State) State) := by
    simp [Hardware.others, hardwareWith, hardware, Hardware.ofWords]
  cases understood with
  | literal d n => rfl
  | move d x target source =>
    exact congrArg (fun word => Except.ok (s.set d word)) (value_hardware source)
  | compute op d x y member target left right =>
    have other : op ≠ .div ∧ op ≠ .divu := by
      constructor <;> exact ne_of_mem_of_not_mem member (by decide)
    rw [step_compute member]
    refine Hardware.step_binary rfl rfl (Command.isMultiplierDivision_eq_false rfl other) ?_
    rw [value_hardware left, value_hardware right]
    exact Known.binary_of_fold (binary?_eq_compute? member ..)
  | multiply x y left right =>
    have multiplies : (Command.ofOpcode .mult [x, y]).multiplies? = some (.mult, x, y) := rfl
    rw [Hardware.step_multiplies multiplies, ← Alu.multiplier?_eq, value_hardware left,
      value_hardware right]
    rfl
  | fetch d => rfl
  | store x n base source =>
    rw [Hardware.step_store (x := x) rfl rfl, value_hardware source]
    rfl
  | load d n base => rfl
  | branch op x y label isBranch =>
    rcases isBranch with rfl | rfl <;> cases x <;> cases y <;> exact idles
  | jump label => exact idles
  | ret op isJump => rcases isJump with rfl | rfl <;> exact idles

theorem step_hardware (understood : Understood c) : (hardware places).step c s = .ok (step c s) :=
  show (hardwareWith (fun _ _ _ => none) places).step c s = _ from step_hardwareWith understood

/-- On the machine, code runs to its end. -/
theorem runFrom_hardware {here : Nat} {code : List Instr} {decision : Option (Option Nat)}
    (runs : ∀ p ∈ code, Runs p) : (hardware places).runFrom here code s decision =
      .ok ((meaning places).execAll code s, ((meaning places).leave here code s).or decision) := by
  induction code generalizing s decision with
  | nil => rfl
  | cons p rest ih =>
    obtain ⟨runsHere, runsLater⟩ := List.forall_mem_cons.1 runs
    rw [Interpretation.execAll_cons, Interpretation.leave_cons]
    unfold Hardware.runFrom
    cases command : p.command? with
    | none =>
      simp only [ih runsLater]
      simp [Interpretation.execInstr, Interpretation.decideInstr, command]
    | some c =>
      have understood := runsHere c command
      rw [execInstr_eq_step places s command understood]
      simp only [step_hardware understood, ih runsLater, Option.or_assoc]
      rw [Interpretation.decideInstr, command]
      cases jumps : c.isJump with
      | false => simp [Option.filter, jumps]
      | true =>
        simp only [Option.filter, jumps, if_true, Option.map_some, Option.some_or]
        rfl

/-- What the machine runs, and has a known result, writes that to a target. -/
theorem Understood.of_result? {k : Known} {w : Word} {rest : List Operand}
    (understood : Understood c) (args : c.args = .reg d :: rest) (found : k.result? c = some w) :
    Target d := by
  rw [Known.result?, understood.known.1] at found
  cases understood with
  | literal _ _ target | move _ _ target | fetch _ target | load _ _ _ target =>
    cases args
    exact target
  | compute _ _ _ _ member target =>
    cases args
    exact target
  | multiply x y =>
    cases args
    obtain ⟨x, -, unary⟩ := Option.bind_eq_some_iff.1 found
    contradiction
  | store x n base =>
    cases args
    simp [Command.ofOpcode, Command.op?, Mnemonic.op?, Known.operand?] at found
  | branch op x y label isBranch =>
    cases args
    rcases isBranch with rfl | rfl <;>
      simp [Command.ofOpcode, Command.op?, Mnemonic.op?, Known.operand?] at found
  | jump label => cases args
  | ret op isJump =>
    rcases isJump with rfl | rfl <;>
      simp [Command.ofOpcode, Command.op?, Mnemonic.op?] at found

end Machine

namespace Folding

variable {k : Known} {v : View} {c c' : Command} {op : Opcode} {d x y : Reg} {a b : List Instr}

/-! ## What folding needs -/

theorem computes_of_mem_reducible (member : op ∈ reducible) : op.Computes 2 := by
  simp only [reducible, List.mem_cons, List.not_mem_nil, or_false] at member
  rcases member with rfl | rfl | rfl | rfl | rfl | rfl | rfl | rfl | rfl | rfl | rfl <;>
    exact ⟨rfl, rfl, Or.inr ⟨rfl, rfl⟩⟩

/-- An operation that is reduced reads its last two operands. -/
theorem uses_of_mem_reducible (member : op ∈ reducible) :
    (Command.ofOpcode op [.reg d, .reg x, .reg y]).uses = [x, y].eraseDups := by
  simp only [reducible, List.mem_cons, List.not_mem_nil, or_false] at member
  rcases member with rfl | rfl | rfl | rfl | rfl | rfl | rfl | rfl | rfl | rfl | rfl <;> rfl

theorem uses_with_literal (member : op ∈ reducible) (n : Int64) :
    (Command.ofOpcode op [.reg d, .reg x, .imm n]).uses = [x] := by
  simp only [reducible, List.mem_cons, List.not_mem_nil, or_false] at member
  rcases member with rfl | rfl | rfl | rfl | rfl | rfl | rfl | rfl | rfl | rfl | rfl <;> rfl

/-- What can be told about the result of a command goes to its first operand only. -/
theorem defs_of_result? {rest : List Operand} {w : Word} (args : c.args = .reg d :: rest)
    (found : k.result? c = some w) : c.defs = [d] := by
  unfold Known.result? at found
  split at found
  · contradiction
  split at found
  case h_1 isOp args' | h_2 isOp args' | h_3 isOp args' | h_4 isOp args' | h_5 isOp args' |
      h_6 isOp args' =>
    cases args.symm.trans args'
    obtain rfl := Command.eq_ofOpcode isOp args
    rfl
  case h_7 op _ o _ _ _ _ isOp args' =>
    cases args.symm.trans args'
    obtain rfl := Command.eq_ofOpcode isOp args
    obtain ⟨x, -, folds⟩ := Option.bind_eq_some_iff.1 found
    cases op <;> simp [Word.unary?] at folds <;> rfl
  case h_8 op _ x y isOp args' =>
    cases args.symm.trans args'
    split at found
    · contradiction
    · next undivided =>
      obtain ⟨x, -, more⟩ := Option.bind_eq_some_iff.1 found
      obtain ⟨y, -, folds⟩ := Option.bind_eq_some_iff.1 more
      have family : op.family.form? 3 = some .binary := by
        cases op <;> simp [Word.binary?] at folds <;> rfl
      have known : c.form? = some .binary := by
        rw [Command.form?_of_op isOp (Bool.eq_false_iff.2 undivided), args]
        exact family
      rw [Command.defs, known]
      simp only [Command.regsAt, args]
      rfl
  · contradiction

theorem form?_of_mem_reducible (member : op ∈ reducible) (x y : Operand) :
    (Command.ofOpcode op [.reg d, x, y]).form? = some .binary := by
  simp only [reducible, List.mem_cons, List.not_mem_nil, or_false] at member
  rcases member with rfl | rfl | rfl | rfl | rfl | rfl | rfl | rfl | rfl | rfl | rfl <;> rfl

theorem defs_of_mem_reducible (member : op ∈ reducible) (x y : Operand) :
    (Command.ofOpcode op [.reg d, x, y]).defs = [d] := by
  rw [Command.defs, form?_of_mem_reducible member]
  rfl

/-- What a command is exchanged for writes the same and reads no more. -/
theorem Exchange.lighter (exchange : Exchange k c c') :
    c'.defs = c.defs ∧ ∀ r ∈ c'.uses, r ∈ c.uses := by
  induction exchange with
  | result _ args found => exact ⟨(defs_of_result? args found).symm, List.forall_mem_nil _⟩
  | literal takes | swap takes =>
    have member := mem_of_takesLiteral takes
    rw [defs_of_mem_reducible member, defs_of_mem_reducible member, uses_with_literal member,
      uses_of_mem_reducible member]
    simp [List.mem_eraseDups]
  | simplify simpler =>
    have member := mem_of_simplified? simpler
    rw [defs_of_mem_reducible member, uses_with_literal member]
    obtain ⟨rfl, -⟩ | ⟨rfl, -⟩ := of_simplified? simpler
    · exact ⟨rfl, by simp [Command.uses_copy]⟩
    · exact ⟨rfl, List.forall_mem_nil _⟩
  | trans _ _ first second =>
    exact ⟨second.1.trans first.1, fun r read => first.2 r (second.2 r read)⟩

/-- What a command is exchanged for stems from it. -/
theorem Exchange.stems (exchange : Exchange k c c') :
    (c'.form? = some .unary ∨ c'.form? = some .define ∨ c'.form? = c.form?) ∧
      ∀ r ∈ c'.names, r ∈ c.names := by
  induction exchange with
  | result _ args _ =>
    refine ⟨Or.inr (Or.inl rfl), ?_⟩
    simp [Command.names, Command.loadImm, Command.ofOpcode, args, Operand.base?]
  | literal takes | swap takes =>
    have member := mem_of_takesLiteral takes
    rw [form?_of_mem_reducible member, form?_of_mem_reducible member]
    exact ⟨Or.inr (Or.inr rfl), by simp [Command.names, Command.ofOpcode, Operand.base?]⟩
  | simplify simpler =>
    obtain ⟨rfl, -⟩ | ⟨rfl, -⟩ := of_simplified? simpler
    · exact ⟨Or.inl rfl, by simp [Command.names, Command.copy, Command.ofOpcode, Operand.base?]⟩
    · exact ⟨Or.inr (Or.inl rfl),
        by simp [Command.names, Command.loadImm, Command.ofOpcode, Operand.base?]⟩
  | trans _ _ first second =>
    refine ⟨?_, fun r named => first.2 r (second.2 r named)⟩
    rcases second.1 with isCopy | isLiteral | same
    · exact Or.inl isCopy
    · exact Or.inr (Or.inl isLiteral)
    · rw [same]
      exact first.1

/-- Each instruction of the second code is the one of the first in its place, or a command that it
was exchanged for. -/
inductive Trades : List Instr → List Instr → Prop
  | nil : Trades [] []
  | keep (p : Instr) {a b : List Instr} : Trades a b → Trades (p :: a) (p :: b)
  | exchange {k : Known} {p q : Instr} {c c' : Command} {a b : List Instr}
    (command : p.command? = some c) (command' : q.command? = some c') (exchange : Exchange k c c') :
    Trades a b → Trades (p :: a) (q :: b)

namespace Trades

theorem refl (code : List Instr) : Trades code code := by
  induction code with
  | nil => exact .nil
  | cons p rest ih => exact .keep p ih

theorem length_eq (trades : Trades a b) : b.length = a.length := by
  induction trades with
  | nil => rfl
  | keep _ _ ih | exchange _ _ _ _ ih => rw [List.length_cons, List.length_cons, ih]

theorem reworked (trades : Trades a b) : Reworked a b := by
  induction trades with
  | nil => exact .refl []
  | keep p _ ih => exact ih.cons p
  | @exchange k p q c c' a b command command' exchange _ ih =>
    have plain := Instr.isPlain_of_command command exchange.stays.1
    have plain' := Instr.isPlain_of_command command' exchange.stays.2
    have exchanged : Reworked ([] ++ [p] ++ a) ([] ++ [q] ++ a) :=
      .window [] a (by simp) (by simpa using plain) (by simpa using plain')
    exact exchanged.trans (ih.cons q)

theorem stems (trades : Trades a b) : Stems a b := by
  induction trades with
  | nil => exact .refl []
  | @keep p a b _ ih =>
    have here : Stems (p :: a) [p] := .of_content (by simp)
    exact here.cons (ih.mono (fun _ => List.mem_cons_of_mem p) fun _ inside => inside)
  | @exchange k p q c c' a b command command' exchange _ ih =>
    obtain ⟨forms, names⟩ := exchange.stems
    have here : Stems (p :: a) [q] := by
      refine ⟨fun q' member form known => ?_, fun q' member r named => ?_⟩
      all_goals obtain rfl := List.mem_singleton.1 member
      · rw [Instr.form?_of_command command'] at known
        rw [known, Option.some.injEq, Option.some.injEq] at forms
        refine forms.imp_right (Or.imp_right fun same => ⟨p, List.mem_cons_self .., ?_⟩)
        rw [Instr.form?_of_command command, ← same]
      · refine Or.inr ⟨p, List.mem_cons_self .., ?_⟩
        rw [Instr.names_of_command command'] at named
        rw [Instr.names_of_command command]
        exact names r named
    exact here.cons (ih.mono (fun _ => List.mem_cons_of_mem p) fun _ inside => inside)

/-- Code with commands exchanged needs no more registers. -/
theorem live (trades : Trades a b) {reserved out : FactSet Reg} {unresolved : Bool} {r : Reg}
    (live : r ∈ Liveness.liveIn reserved unresolved out b) :
    r ∈ Liveness.liveIn reserved unresolved out a := by
  induction trades with
  | nil => exact live
  | keep _ trades ih =>
    rw [Liveness.mem_liveIn_cons, Liveness.usesBefore_of_length trades.length_eq] at live
    rw [Liveness.mem_liveIn_cons]
    exact live.imp_right (And.imp_left ih)
  | exchange command command' exchange _ ih =>
    obtain ⟨defs, uses⟩ := exchange.lighter
    have stays := Instr.isJump_of_isPlain (Instr.isPlain_of_command command exchange.stays.1)
    have stays' := Instr.isJump_of_isPlain (Instr.isPlain_of_command command' exchange.stays.2)
    rw [Liveness.mem_liveIn_cons, Liveness.usesBefore_of_stays stays', uses_of_command command',
      defs_of_command command', defs] at live
    rw [Liveness.mem_liveIn_cons, Liveness.usesBefore_of_stays stays, uses_of_command command,
      defs_of_command command]
    exact live.imp (uses r) (And.imp_left ih)

end Trades

/-- Folding exchanges some commands of a block, also if it faults, and says whether it did. -/
theorem runFrom_trades (v : View) (k : Known) (next : Nat) (code : List Instr) :
    Trades code (runFrom v k next code).block.code ∧
      ((runFrom v k next code).changed = false → (runFrom v k next code).block.code = code) := by
  induction code generalizing k next with
  | nil => exact ⟨.nil, fun _ => rfl⟩
  | cons p rest ih =>
    unfold runFrom
    cases command : p.command? with
    | none =>
      obtain ⟨trades, same⟩ := ih k next
      exact ⟨.keep p trades, fun unchanged => congrArg (p :: ·) (same unchanged)⟩
    | some c =>
      simp only
      rcases fold_exchange v k next p c with isLeft | ⟨changed, c', command', exchange⟩
      · rw [isLeft]
        simp only [command, Option.elim_some]
        split
        · exact ⟨.keep p (.refl rest), fun _ => rfl⟩
        · next k' _ =>
          obtain ⟨trades, same⟩ := ih k' next
          exact ⟨.keep p trades, fun unchanged => congrArg (p :: ·) (same unchanged)⟩
      · simp only [command', Option.elim_some]
        split
        · exact ⟨.exchange command command' exchange (.refl rest), by simp [changed]⟩
        · exact ⟨.exchange command command' exchange (ih _ _).1, by simp [changed]⟩

/-- Constant folding lightens the code of a block. -/
theorem folding_lightens (block : BlockCode) :
    Lightens v block.code (Folding.run v block).block.code := by
  have trades := (runFrom_trades v { fixed := v.reserved } block.nextId block.code).1
  exact ⟨trades.reworked, trades.stems, fun _ _ => trades.live⟩

/-! ## What folding leaves to the machine -/

/-- One of two operands stays, and a literal takes the place of the other. -/
theorem understood_literal {z : Reg} (member : op ∈ reducible) (stays : z = x ∨ z = y) (n : Int64)
    (understood : Machine.Understood (.ofOpcode op [.reg d, .reg x, .reg y])) :
    Machine.Understood (.ofOpcode op [.reg d, .reg z, .imm n]) := by
  obtain ⟨_, _, isArgs, operation, target, left, right⟩ :=
    understood.of_computes (computes_of_mem_reducible member)
  cases isArgs
  have named : Machine.Named z := by rcases stays with rfl | rfl <;> assumption
  exact .compute op d _ _ operation target named trivial

theorem understood_simplified? (simpler : simplified? d x op = some c')
    (understood : Machine.Understood (.ofOpcode op [.reg d, .reg x, .imm 0])) :
    Machine.Understood c' := by
  obtain ⟨_, _, isArgs, -, target, left, -⟩ :=
    understood.of_computes (computes_of_mem_reducible (mem_of_simplified? simpler))
  cases isArgs
  obtain ⟨rfl, -⟩ | ⟨rfl, -⟩ := of_simplified? simpler
  · exact .move d _ target left
  · exact .literal d 0 target

/-- The machine runs what a command that it runs is exchanged for. -/
theorem Exchange.understood (exchange : Exchange k c c') (understood : Machine.Understood c) :
    Machine.Understood c' := by
  induction exchange with
  | result _ args found => exact .literal _ _ (understood.of_result? args found)
  | literal takes => exact understood_literal (mem_of_takesLiteral takes) (Or.inl rfl) _ understood
  | swap takes => exact understood_literal (mem_of_takesLiteral takes) (Or.inr rfl) _ understood
  | simplify simpler => exact understood_simplified? simpler understood
  | trans _ _ first second => exact second (first understood)

/-- What holds of a command also holds of what it is exchanged for. -/
def Exchangeable (P : Instr → Prop) : Prop :=
  ∀ {k : Known} {p q : Instr} {c c' : Command}, P p → p.command? = some c → q.command? = some c' →
    Exchange k c c' → P q

theorem exchangeable_runs : Exchangeable Machine.Runs := fun runs command command' exchange =>
  Machine.runs_of_command command' (exchange.understood (runs _ command))

namespace Refolds

theorem all {P : Instr → Prop} (exchangeable : Exchangeable P) (refolds : Refolds k a b)
    (before : ∀ p ∈ a, P p) : ∀ p ∈ b, P p := by
  induction refolds with
  | nil => exact before
  | skip _ _ ih | keep _ _ _ _ ih =>
    obtain ⟨first, later⟩ := List.forall_mem_cons.1 before
    exact List.forall_mem_cons.2 ⟨first, ih later⟩
  | exchange command command' exchange _ _ ih =>
    obtain ⟨first, later⟩ := List.forall_mem_cons.1 before
    exact List.forall_mem_cons.2 ⟨exchangeable first command command' exchange, ih later⟩

theorem trades (refolds : Refolds k a b) : Trades a b := by
  induction refolds with
  | nil => exact .nil
  | skip _ _ ih | keep _ _ _ _ ih => exact .keep _ ih
  | exchange command command' exchange _ _ ih => exact .exchange command command' exchange ih

end Refolds

/-- Constant folding refits the code of a block, does not fault, and says whether it has changed
anything. -/
theorem folding_refits {block : BlockCode} (runs : ∀ p ∈ block.code, Machine.Runs p) :
    Refits v block.code (Folding.run v block).block.code ∧ (Folding.run v block).fault = none ∧
      ((Folding.run v block).changed = false → (Folding.run v block).block.code = block.code) := by
  obtain ⟨fault, same, refolds⟩ := runFrom_refolds (v := v) (k := { fixed := v.reserved })
    (fun p member => (runs p member).isKnown) block.nextId
  have runs' := refolds.all exchangeable_runs runs
  have ends : ∀ places here s,
      (Machine.meaning places).execAll (Folding.run v block).block.code s =
          (Machine.meaning places).execAll block.code s ∧
        (Machine.meaning places).leave here (Folding.run v block).block.code s =
          (Machine.meaning places).leave here block.code s := by
    intro places here s
    have alike : (Machine.hardware places).runFrom here _ s none = _ :=
      refolds.runFrom_eq ⟨by simp, by simp⟩
    rw [Machine.runFrom_hardware runs, Machine.runFrom_hardware runs', Except.ok.injEq,
      Prod.mk.injEq, Option.or_none, Option.or_none] at alike
    exact alike
  refine ⟨fun _ => ⟨fun places => ⟨fun s => ?_, fun here s => (ends places here s).2,
    fun _ => refolds.trades.live⟩, refolds.trades.reworked, runs'⟩, fault, same⟩
  rw [(ends places 0 s).1]
  exact .refl ..

end Folding

end MipsFlow
