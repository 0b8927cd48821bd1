import MipsFlow.Optimizer.Workspace
import MipsFlow.Proofs.BlockPass
import MipsFlow.Proofs.Known
import MipsFlow.Proofs.Linking

/-!
# Constant folding is exact

Folding exchanges a command for another one, by what is known before it: `Exchange` lists the ways.
Where the known values hold, both commands do the same (`Exchange.steps`), and the same values are
known behind both. Folding the code of a block is such an exchange at every command
(`runFrom_refolds`), so the block runs as before on any hardware, to its end or until it stops
(`constant_folding_exact`).
-/

namespace MipsFlow

namespace Folding

variable {k : Known} {v : View} {c c' : Command} {op : Opcode} {d x y : Reg} {w : Word}

/-! ## Operations with reduced operands -/

/-- The operations that take a known operand as a literal, or do little with zero. -/
def reducible : List Opcode :=
  [.addu, .addiu, .subu, .slt, .sltu, .and, .andi, .or, .ori, .xor, .xori]

theorem mem_of_takesLiteral {n : Int} (takes : takesLiteral op n = true) : op ∈ reducible := by
  cases op <;> simp [takesLiteral, reducible] at takes ⊢

theorem mem_of_simplified? (simpler : simplified? d x op = some c') : op ∈ reducible := by
  cases op <;> simp [simplified?, reducible] at simpler ⊢

/-- An operation that is reduced is a known command that stays in the block, and no division. -/
theorem of_mem_reducible (member : op ∈ reducible) (d : Reg) (a b : Operand) :
    (Command.ofOpcode op [.reg d, a, b]).isJump = false ∧
      (Command.ofOpcode op [.reg d, a, b]).isForeign = false ∧
      (Command.ofOpcode op [.reg d, a, b]).isMultiplierDivision = false := by
  simp only [reducible, List.mem_cons, List.not_mem_nil, or_false] at member
  rcases member with rfl | rfl | rfl | rfl | rfl | rfl | rfl | rfl | rfl | rfl | rfl <;>
    exact ⟨rfl, rfl, rfl⟩

/-- An operation that is reduced always has a result. -/
theorem exists_binary? (member : op ∈ reducible) (a b : Word) :
    ∃ w, Word.binary? op a b = some w := by
  simp only [reducible, List.mem_cons, List.not_mem_nil, or_false] at member
  rcases member with rfl | rfl | rfl | rfl | rfl | rfl | rfl | rfl | rfl | rfl | rfl <;>
    exact ⟨_, rfl⟩

/-- An operation on zero is simplified to what it computes. -/
theorem of_simplified? (simpler : simplified? d x op = some c') :
    (c' = .copy d x ∧ ∀ a, Word.binary? op a 0 = some a) ∨
      (c' = .loadImm d 0 ∧ ∀ a, Word.binary? op a 0 = some 0) := by
  cases op <;> simp [simplified?] at simpler <;> subst simpler <;> simp [Word.binary?]

theorem step_reducible {M : Type} {H : Hardware M} {s : MachineState Word M} {a b : Operand}
    (member : op ∈ reducible)
    (calculates : Word.binary? op (H.value s a) (H.value s b) = some w) :
    H.step (.ofOpcode op [.reg d, a, b]) s = .ok (s.set d w) :=
  Hardware.step_binary rfl rfl (of_mem_reducible member d a b).2.2 (Known.binary_of_fold calculates)

/-! ## One command -/

/-- What may become of a command, by the values that are known before it. -/
inductive Exchange (k : Known) : Command → Command → Prop
  /-- A known result is loaded. -/
  | result {c : Command} {d : Reg} {rest : List Operand} {w : Word} (stays : c.isJump = false)
    (args : c.args = .reg d :: rest) (found : k.result? c = some w) :
    Exchange k c (.loadImm d w.toImm)
  /-- A known operand is put in as a literal. -/
  | literal {op : Opcode} {d x y : Reg} {w : Word} (takes : takesLiteral op w.toInt = true)
    (found : k.reg? y = some w) :
    Exchange k (.ofOpcode op [.reg d, .reg x, .reg y]) (.ofOpcode op [.reg d, .reg x, .imm w.toImm])
  /-- The known operand comes first, and the operands are swapped. -/
  | swap {op : Opcode} {d x y : Reg} {w : Word} (takes : takesLiteral op w.toInt = true)
    (commutes : op.has .commutes = true) (found : k.reg? x = some w) :
    Exchange k (.ofOpcode op [.reg d, .reg x, .reg y]) (.ofOpcode op [.reg d, .reg y, .imm w.toImm])
  /-- An operation on zero is simplified. -/
  | simplify {op : Opcode} {d x : Reg} {c' : Command} (simpler : simplified? d x op = some c') :
    Exchange k (.ofOpcode op [.reg d, .reg x, .imm 0]) c'
  | trans {a b c : Command} : Exchange k a b → Exchange k b c → Exchange k a c

namespace Exchange

/-- Jumps are not exchanged. -/
theorem stays (exchange : Exchange k c c') : c.isJump = false ∧ c'.isJump = false := by
  induction exchange with
  | result stays => exact ⟨stays, rfl⟩
  | literal takes | swap takes =>
    have plain := of_mem_reducible (mem_of_takesLiteral takes)
    exact ⟨(plain ..).1, (plain ..).1⟩
  | simplify simpler =>
    refine ⟨(of_mem_reducible (mem_of_simplified? simpler) ..).1, ?_⟩
    obtain ⟨rfl, -⟩ | ⟨rfl, -⟩ := of_simplified? simpler <;> rfl
  | trans _ _ first second => exact ⟨first.1, second.2⟩

theorem isForeign_eq_false (exchange : Exchange k c c') : c'.isForeign = false := by
  induction exchange with
  | result => rfl
  | literal takes | swap takes => exact (of_mem_reducible (mem_of_takesLiteral takes) ..).2.1
  | simplify simpler => obtain ⟨rfl, -⟩ | ⟨rfl, -⟩ := of_simplified? simpler <;> rfl
  | trans _ _ _ second => exact second

/-- Where the known values hold, what is exchanged does the same. -/
theorem steps {M : Type} {H : Hardware M} {s : MachineState Word M} (exchange : Exchange k c c')
    (holds : k.Holds H s) : H.step c' s = H.step c s := by
  induction exchange with
  | @result c d rest w _ args found =>
    obtain ⟨d', rest', args', steps⟩ := Known.step_of_result? found
    cases args.symm.trans args'
    rw [steps H s holds, Hardware.step_loadImm, w.ofImm_toImm]
  | @literal op d x y w takes found =>
    have member := mem_of_takesLiteral takes
    have same : H.value s (.imm w.toImm) = H.value s (.reg y) :=
      w.ofImm_toImm.trans (holds.of_reg? found).symm
    obtain ⟨u, calculates⟩ := exists_binary? member (H.value s (.reg x)) (H.value s (.reg y))
    rw [step_reducible member calculates, step_reducible member (same ▸ calculates)]
  | @swap op d x y w takes commutes found =>
    have member := mem_of_takesLiteral takes
    have same : H.value s (.imm w.toImm) = H.value s (.reg x) :=
      w.ofImm_toImm.trans (holds.of_reg? found).symm
    obtain ⟨u, calculates⟩ := exists_binary? member (H.value s (.reg x)) (H.value s (.reg y))
    have swapped : Word.binary? op (H.value s (.reg y)) (H.value s (.imm w.toImm)) = some u := by
      rw [same, Word.binary?_comm commutes, calculates]
    rw [step_reducible member calculates, step_reducible member swapped]
  | simplify simpler =>
    have member := mem_of_simplified? simpler
    have zero : H.value s (.imm 0) = 0 := rfl
    obtain ⟨rfl, copies⟩ | ⟨rfl, clears⟩ := of_simplified? simpler
    · rw [step_reducible member (by rw [zero, copies]), Hardware.step_copy]
      rfl
    · rw [step_reducible member (by rw [zero, clears]), Hardware.step_loadImm]
      rfl
  | trans _ _ first second => exact second.trans first

end Exchange

/-- What may be folded computes, copies or loads. -/
theorem silent_of_isFoldable (foldable : isFoldable v c = true) :
    c.isJump = false ∧ c.isStore = false ∧ c.leavesCode = false := by
  simp only [isFoldable, Bool.and_eq_true, Bool.or_eq_true, decide_eq_true_eq] at foldable
  rcases foldable.1 with (((arith | copies) | isLo) | isHi) | loads
  · exact Command.silent_of_isArith arith
  · obtain ⟨pair, isCopy⟩ := Option.isSome_iff_exists.1 copies
    obtain rfl := Command.copy?_eq_some.1 isCopy
    exact ⟨rfl, rfl, rfl⟩
  · exact Command.silent_of_value isLo (by simp)
  · exact Command.silent_of_value isHi (by simp)
  · simp only [Command.readsMemory, Bool.and_eq_true] at loads
    exact Command.silent_of_isLoad loads.1.1

theorem literalOperands?_exchange {x' : Reg} {last : Operand}
    (put : literalOperands? k op x y = some (x', last)) :
    Exchange k (.ofOpcode op [.reg d, .reg x, .reg y]) (.ofOpcode op [.reg d, .reg x', last]) := by
  unfold literalOperands? at put
  split at put
  · next found =>
    split at put
    · next takes =>
      cases put
      exact .literal takes found
    · contradiction
  · next found _ =>
    split at put
    · next guard =>
      cases put
      obtain ⟨commutes, takes⟩ := Bool.and_eq_true_iff.1 guard
      exact .swap takes commutes found
    · contradiction
  · contradiction

/-- Reducing the operands of a command exchanges it. -/
theorem reduce_exchange (k : Known) (c : Command) :
    (∀ c', (reduce k c).simpler = some c' → Exchange k c c') ∧
      ∀ c', (reduce k c).changed = some c' → Exchange k c c' := by
  unfold reduce
  split
  swap
  · simp
  next op d x last isOp args =>
  obtain rfl := Command.eq_ofOpcode isOp args
  have simplifies : ∀ {x' : Reg} {last' : Operand} {c' : Command},
      (if last' = .imm 0 then simplified? d x' op else none) = some c' →
      Exchange k (.ofOpcode op [.reg d, .reg x', last']) c' := by
    intro x' last' c' simpler
    split at simpler
    · next zero =>
      subst zero
      exact .simplify simpler
    · contradiction
  cases last with
  | reg y =>
    cases put : literalOperands? k op x y with
    | none =>
      simp only [put, Option.getD_none, Option.map_none]
      exact ⟨fun c' simpler => simplifies simpler, by simp⟩
    | some operands =>
      have exchange := literalOperands?_exchange (d := d) put
      simp only [put, Option.getD_some, Option.map_some]
      refine ⟨fun c' simpler => exchange.trans (simplifies simpler), fun c' changed => ?_⟩
      cases changed
      exact exchange
  | _ => exact ⟨fun c' simpler => simplifies simpler, by simp⟩

/-- Folding leaves a command, or exchanges it. -/
theorem fold_exchange (v : View) (k : Known) (next : Nat) (p : Instr) (c : Command) :
    fold v k next p c = ⟨p, next, false⟩ ∨
      (fold v k next p c).changed = true ∧
        ∃ c', (fold v k next p c).instr.command? = some c' ∧ Exchange k c c' := by
  unfold fold
  split
  · next foldable found args =>
    exact Or.inr ⟨rfl, _, by simp, .result (silent_of_isFoldable foldable).1 args found⟩
  · split
    · obtain ⟨simplifies, changes⟩ := reduce_exchange k c
      split
      · next simpler isReduced =>
        exact Or.inr ⟨rfl, simpler, by simp, simplifies simpler (by rw [isReduced])⟩
      · next changed isReduced =>
        exact Or.inr ⟨rfl, changed, by simp, changes changed (by rw [isReduced])⟩
      · exact Or.inl rfl
    · exact Or.inl rfl
  · exact Or.inl rfl

/-! ## A block -/

/-- The second piece of code is the first one, with commands exchanged by what is known before
them. -/
inductive Refolds : Known → List Instr → List Instr → Prop
  | nil {k : Known} : Refolds k [] []
  /-- What is no command tells nothing. -/
  | skip {k : Known} {p : Instr} {a b : List Instr} (noCommand : p.command? = none) :
    Refolds k a b → Refolds k (p :: a) (p :: b)
  | keep {k k' : Known} {p : Instr} {c : Command} {a b : List Instr}
    (command : p.command? = some c) (known : c.isForeign = false) (isAfter : k.after c = .ok k') :
    Refolds k' a b → Refolds k (p :: a) (p :: b)
  | exchange {k k' : Known} {p q : Instr} {c c' : Command} {a b : List Instr}
    (command : p.command? = some c) (command' : q.command? = some c') (exchange : Exchange k c c')
    (isAfter : k.after c' = .ok k') : Refolds k' a b → Refolds k (p :: a) (q :: b)

/-- Folding known commands does not fault, exchanges some of them, and says whether it did. -/
theorem runFrom_refolds {code : List Instr} (known : ∀ p ∈ code, p.isKnown = true) (next : Nat) :
    (runFrom v k next code).fault = none ∧
      ((runFrom v k next code).changed = false → (runFrom v k next code).block.code = code) ∧
      Refolds k code (runFrom v k next code).block.code := by
  induction code generalizing k next with
  | nil => exact ⟨rfl, fun _ => rfl, .nil⟩
  | cons p rest ih =>
    obtain ⟨knownHere, knownLater⟩ := List.forall_mem_cons.1 known
    unfold runFrom
    cases command : p.command? with
    | none =>
      obtain ⟨fault, same, refolds⟩ := ih knownLater next (k := k)
      exact ⟨fault, fun unchanged => congrArg (p :: ·) (same unchanged), .skip command refolds⟩
    | some c =>
      rcases fold_exchange v k next p c with isLeft | ⟨changed, c', command', exchange⟩
      · have knownCommand : c.isForeign = false := by simpa [Instr.isKnown, command] using knownHere
        obtain ⟨k', isAfter⟩ := k.exists_after knownCommand
        obtain ⟨fault, same, refolds⟩ := ih knownLater next (k := k')
        simp only [isLeft, command, Option.elim_some, isAfter]
        exact ⟨fault, fun unchanged => congrArg (p :: ·) (same unchanged),
          .keep command knownCommand isAfter refolds⟩
      · obtain ⟨k', isAfter⟩ := k.exists_after exchange.isForeign_eq_false
        obtain ⟨fault, -, refolds⟩ := ih knownLater (fold v k next p c).nextId (k := k')
        simp only [command', Option.elim_some, isAfter]
        exact ⟨fault, fun unchanged => by simp [changed] at unchanged,
          .exchange command command' exchange isAfter refolds⟩

/-- Where the known values hold, refolded code runs as before. -/
theorem Refolds.runFrom_eq {M : Type} {H : Hardware M} {here : Nat} {a b : List Instr}
    (refolds : Refolds k a b) {s : MachineState Word M} {decision : Option (Option Nat)}
    (holds : k.Holds H s) : H.runFrom here b s decision = H.runFrom here a s decision := by
  induction refolds generalizing s decision with
  | nil => rfl
  | skip noCommand _ ih =>
    simp only [Hardware.runFrom, noCommand]
    exact ih holds
  | @keep k k' p c a b command known isAfter _ ih =>
    simp only [Hardware.runFrom, command]
    cases steps : H.step c s with
    | ok t => exact ih (holds.after known isAfter steps)
    | error stop => rfl
  | @exchange k k' p q c c' a b command command' exchange isAfter _ ih =>
    simp only [Hardware.runFrom, command, command', ← exchange.steps holds, exchange.stays]
    cases steps : H.step c' s with
    | ok t => exact ih (holds.after exchange.isForeign_eq_false isAfter steps)
    | error stop => rfl

theorem apply_folding {o : Options} {w : Workspace} {b : Block}
    (fault : (run (w.facts.view o.annotated b) ⟨b.code, w.nextId⟩).fault = none) :
    let outcome := run (w.facts.view o.annotated b) ⟨b.code, w.nextId⟩
    Pass.folding.apply o w b = (w.store b.id outcome.block, .ok outcome.changed) := by
  simp only [Pass.apply, fault]

/-- Constant folding is exact. Take any workspace, whatever registers its facts reserve, and any
block of it without foreign commands. Folding the block does not fault. On any hardware and from any
state, the new code ends with the same registers and the same memory as the old one, and takes the
same decision; or it stops for the same reason and in the same state. -/
theorem constant_folding_exact {M : Type} (H : Hardware M) (o : Options) (w : Workspace) (b : Block)
    (here : w.graph.block? b.id = some b) (known : ∀ p ∈ b.code, p.isKnown = true)
    (s : MachineState Word M) :
    ∃ w' changed code, Pass.folding.apply o w b = (w', .ok changed) ∧
      w'.graph.block? b.id = some { b with code } ∧ H.run b.id code s = H.run b.id b.code s := by
  let outcome := run (w.facts.view o.annotated b) ⟨b.code, w.nextId⟩
  obtain ⟨fault, -, refolds⟩ := runFrom_refolds (v := w.facts.view o.annotated b)
    (k := { fixed := w.facts.reserved }) known w.nextId
  have unknown : Known.Holds H { fixed := w.facts.reserved } s := ⟨by simp, by simp⟩
  exact ⟨w.store b.id outcome.block, outcome.changed, outcome.block.code, apply_folding fault,
    Graph.block?_setCode_self here, refolds.runFrom_eq unknown⟩

/-- A known operand that comes first, a word that is loaded from where it was stored, an operation
on zero, a product, and a sum that does not fit: all but the last are folded, and the program
stops there. -/
theorem constant_folding_exact_overflow :
    let general (n : Fin 32) := Operand.reg (.general n)
    let code : List Instr := [.ofCommand 1 (.loadImm (.general 8) 5),
      .ofCommand 2 (.loadImm (.general 9) 2147483647),
      .ofCommand 3 (.ofOpcode .addu [general 10, general 8, general 4]),
      .ofCommand 4 (.ofOpcode .sw [general 8, .mem (.number 4) (.general 29)]),
      .ofCommand 5 (.ofOpcode .lw [general 11, .mem (.number 4) (.general 29)]),
      .ofCommand 6 (.ofOpcode .or [general 12, general 4, general 0]),
      .ofCommand 7 (.ofOpcode .mult [general 8, general 11]),
      .ofCommand 8 (.ofOpcode .mflo [general 13]),
      .ofCommand 9 (.ofOpcode .add [general 14, general 9, general 8]),
      .ofCommand 10 (.ofOpcode .jr [.reg Reg.link])]
    let b : Block := { id := 0, code }
    let H := Hardware.ofWords fun _ _ _ => none
    let s : MachineState Word Memory := ⟨fun _ => 7, fun _ => 0⟩
    let folded : List Command := [.loadImm (.general 8) 5, .loadImm (.general 9) 2147483647,
      .ofOpcode .addu [general 10, general 4, .imm 5],
      .ofOpcode .sw [general 8, .mem (.number 4) (.general 29)], .loadImm (.general 11) 5,
      .copy (.general 12) (.general 4), .ofOpcode .mult [general 8, general 11],
      .loadImm (.general 13) 25, .ofOpcode .add [general 14, general 9, general 8],
      .ofOpcode .jr [.reg Reg.link]]
    ∃ w' code', Pass.folding.apply {} (.create {} ⟨[b]⟩ 11 {}) b = (w', .ok true) ∧
      w'.graph.block? 0 = some { b with code := code' } ∧
      code'.filterMap Instr.command? = folded ∧
      ((H.run 0 code' s).map Prod.snd).mapError (fun (trap, t) =>
        (trap, [10, 13, 14].map fun n => t.read 0 (.general n))) =
          .error (.overflow, [12, 25, 7]) := by
  intro general code b H s folded
  let w := Workspace.create {} ⟨[b]⟩ 11 {}
  obtain ⟨w', changed, code', applied, isBlock, same⟩ :=
    constant_folding_exact H {} w b rfl (by decide) s
  have effect : (Pass.folding.apply {} w b).2.toOption = some true ∧
      ((Pass.folding.apply {} w b).1.graph.block? 0).map (·.code.filterMap Instr.command?) =
        some folded := by decide +kernel
  rw [applied, isBlock] at effect
  obtain ⟨isChanged, commands⟩ := effect
  obtain rfl : changed = true := Option.some.inj isChanged
  refine ⟨w', code', applied, isBlock, Option.some.inj commands, ?_⟩
  rw [same]
  decide +kernel

end Folding

end MipsFlow
