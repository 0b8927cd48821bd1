import MipsFlow.Proofs.Effects

/-!
# Where the optimizer can fault

While constant folding goes through a block it looks up the operands of a product without asking
whether they are there. So a product that lacks an operand may end the optimizer, and nothing else
does (`Optimizer.run_ok`). Such a command is not understood, so no pass makes one up: it has been in
the program from the start.
-/

namespace MipsFlow

/-- The command multiplies into the multiplier's registers, but lacks an operand. -/
def Command.isShortProduct (c : Command) : Bool :=
  (c.op? = some .mult || c.op? = some .multu) && c.args.length < 2

/-- The instruction is a product that lacks an operand. -/
def Instr.isShortProduct (p : Instr) : Bool := p.isCommandWith Command.isShortProduct

theorem Command.isForeign_of_isShortProduct {c : Command} (short : c.isShortProduct = true) :
    c.isForeign = true := by
  simp only [isShortProduct, Bool.and_eq_true, Bool.or_eq_true, decide_eq_true_eq] at short
  obtain ⟨isOp, fewer⟩ := short
  have foreign (op : Opcode) (multiplies : op.family = .multiply) (isOp : c.op? = some op)
      (other : op ≠ .div ∧ op ≠ .divu) : c.isForeign = true := by
    rw [isForeign, form?_of_op isOp (isMultiplierDivision_eq_false isOp other), multiplies]
    have length : c.args.length = 0 ∨ c.args.length = 1 := by omega
    rcases length with length | length
    all_goals
      rw [length]
      rfl
  rcases isOp with isOp | isOp <;> exact foreign _ rfl isOp (by decide)

namespace Known

variable {k : Known} {c : Command} {fault : Fault}

/-- Whatever goes to the multiplier has two operands, unless it is a product that lacks one. -/
theorem two_operands {args : List Operand} (operands : multiplierOperands c = some args)
    (whole : c.isShortProduct = false) : 2 ≤ args.length := by
  unfold multiplierOperands at operands
  split at operands
  · next product =>
    obtain rfl := Option.some.inj operands
    simp only [Command.isShortProduct, Bool.and_eq_false_iff, decide_eq_false_iff_not] at whole
    rcases whole with other | enough
    · simp [product] at other
    · exact Nat.not_lt.1 enough
  · split at operands
    · next division =>
      obtain rfl := Option.some.inj operands
      have length : c.args.length = 2 ∨ c.args.length = 3 := by
        have shape := (Bool.and_eq_true_iff.1 division).2
        split at shape
        · next args => simp [args]
        · next args => simp [args]
        · contradiction
      rw [List.length_drop]
      omega
    · contradiction

/-- Only a product that lacks an operand cannot be evaluated. -/
theorem short_of_fault (faults : k.after c = .error fault) : c.isShortProduct = true := by
  by_contra whole
  rw [Bool.not_eq_true] at whole
  obtain ⟨pair, evaluated⟩ : ∃ pair, k.multiplierResult c = .ok pair := by
    unfold multiplierResult
    cases c.op? with
    | none => exact ⟨_, rfl⟩
    | some op =>
      cases operands : multiplierOperands c with
      | none => exact ⟨_, rfl⟩
      | some args =>
        match args, two_operands operands whole with
        | x :: y :: rest, _ => cases first : k.operand? x <;> simp [first]
  unfold after at faults
  rw [evaluated] at faults
  cases faults

end Known

/-- Constant folding faults only in a block with a product that lacks an operand. -/
theorem Folding.short_of_fault {v : View} {k : Known} {next : Nat} {code : List Instr}
    {fault : Fault} (faults : (runFrom v k next code).fault = some fault) :
    ∃ p ∈ code, p.isShortProduct = true := by
  induction code generalizing k next with
  | nil => cases faults
  | cons p rest ih =>
    have later {k : Known} {next : Nat} (faults : (runFrom v k next rest).fault = some fault) :
        ∃ q ∈ p :: rest, q.isShortProduct = true :=
      let ⟨q, member, short⟩ := ih faults
      ⟨q, List.mem_cons_of_mem _ member, short⟩
    rw [runFrom] at faults
    cases command : p.command? with
    | none =>
      simp only [command] at faults
      exact later faults
    | some c =>
      simp only [command] at faults
      split at faults
      · next fault' after =>
        refine ⟨p, List.mem_cons_self .., ?_⟩
        rcases fold_exchange v k next p c with same | ⟨-, c', command', exchange⟩
        · rw [same, command] at after
          rw [Instr.isShortProduct, Instr.isCommandWith_of_command command]
          exact Known.short_of_fault after
        · -- what a command is exchanged for is understood
          rw [command'] at after
          have foreign := Command.isForeign_of_isShortProduct (Known.short_of_fault after)
          rw [exchange.isForeign_eq_false] at foreign
          contradiction
      · exact later faults

/-- What remains of the skeleton lacks no operand that was there. -/
theorem Instr.Persists.isShortProduct {p q : Instr} (persists : p.Persists q)
    (short : q.isShortProduct = true) : p.isShortProduct = true := by
  rcases persists.content with same | ⟨c, d, -, isCommand, known, rereads⟩
  · unfold Instr.isShortProduct Instr.isCommandWith at short ⊢
    rwa [← Interpretation.command?_congr same]
  · have command : q.command? = some d := by rw [Instr.command?, isCommand]
    rw [Instr.isShortProduct, Instr.isCommandWith_of_command command] at short
    have foreign := Command.isForeign_of_isShortProduct short
    rw [Command.isForeign, rereads.form, ← Command.isForeign, known] at foreign
    contradiction

/-- A product that lacks an operand belongs to the skeleton. -/
theorem Instr.hasEffect_of_isShortProduct {p : Instr} (short : p.isShortProduct = true) :
    p.hasEffect = true := by
  obtain ⟨c, command, isShort⟩ := (Option.any_eq_true _ _).1 short
  have foreign := Command.isForeign_of_isShortProduct isShort
  have stays : c.isJump = false := by
    simp only [Command.isShortProduct, Bool.and_eq_true, Bool.or_eq_true,
      decide_eq_true_eq] at isShort
    rcases isShort.1 with isOp | isOp <;> rw [Command.isJump, Command.has_of_op? isOp] <;> rfl
  simp [Instr.hasEffect, command, Command.hasEffect, foreign, stays]

/-- No product of the code lacks an operand. -/
def Whole (code : List Instr) : Prop := ∀ p ∈ code, p.isShortProduct = false

/-- Code that inherits the skeleton of whole code is whole. -/
theorem Whole.of_keeps {a b : List Instr} (whole : Whole a) (keeps : Ward.effects.Keeps a b) :
    Whole b := by
  intro q member
  by_contra short
  rw [Bool.not_eq_false] at short
  obtain ⟨p, inside, persists⟩ :=
    keeps.of_mem (List.mem_filter.2 ⟨member, Instr.hasEffect_of_isShortProduct short⟩)
  have before := whole p (List.mem_filter.1 inside).1
  rw [Instr.Persists.isShortProduct persists short] at before
  contradiction

/-! ## Runs -/

namespace Workspace

variable {o : Options} {w : Workspace} {b : Block} {id : Nat}

/-- No pass faults on whole code. -/
theorem apply_ok (whole : Whole w.graph.flatten) (here : w.graph.block? id = some b) (pass : Pass) :
    ∃ w' changed, pass.apply o w b = (w', .ok changed) := by
  cases pass with
  | folding =>
    cases faults : (Folding.run (w.facts.view o.annotated b) ⟨b.code, w.nextId⟩).fault with
    | none => exact ⟨_, _, Folding.apply_folding faults⟩
    | some fault =>
      obtain ⟨p, member, short⟩ := Folding.short_of_fault faults
      have isWhole := whole p (Graph.mem_flatten here member)
      rw [short] at isWhole
      contradiction
  | _ => exact ⟨_, _, rfl⟩

/-- Whole code stays whole. -/
theorem whole_lasting (o : Options) :
    Lasting o (fun _ => True) fun _ w => w.Orderly o ∧ Whole w.graph.flatten :=
  (orderly_lasting o).and_graph (R := fun g => Whole g.flatten) (fun _ _ _ => trivial)
    fun orderly whole here applied => whole.of_keeps (apply_keeps
      (Optimizer.effects_respected _ _) (fun _ _ _ => trivial) orderly.placed here applied)

end Workspace

namespace Optimizer

variable {o : Options} {limit : Nat} {s s' : State} {changed : Bool}

theorem cycle_ok (whole : Whole s.program.code) (o : Options) (limit : Nat) :
    ∃ result, cycle o limit s = .ok result := by
  let jumps := Jumps.run o.annotated s.program.nextId s.program.code
  have simplified : Whole jumps.code :=
    whole.of_keeps ((effects_respected (.ofList o.reserved) fun _ _ => True).jumps _ _ _ _)
  rw [← Graph.flatten_build jumps.code] at simplified
  obtain ⟨outcome, settles⟩ := settleBlocks_ok (Workspace.whole_lasting o)
    (fun pass ⟨_, whole⟩ here => Workspace.apply_ok whole here pass)
    ⟨orderly_workspace o s, (Workspace.refresh_graph ..).symm ▸ simplified⟩ limit
    (List.range (s.workspace o).graph.size)
  rw [cycle_eq, settles]
  exact ⟨_, rfl⟩

theorem cycles_ok (whole : Whole s.program.code) (o : Options) (limit left : Nat) :
    ∃ final, cycles o limit left s = .ok final := by
  induction left generalizing s with
  | zero => exact ⟨_, rfl⟩
  | succ left ih =>
    obtain ⟨⟨s', changed⟩, cycled⟩ := cycle_ok whole o limit
    have further := ih (whole.of_keeps
      (cycle_respects (effects_respected _ _) (fun _ _ _ _ _ => trivial) cycled))
    simp only [cycles, cycled, bind, Except.bind, pure, Except.pure]
    split
    · exact further
    · exact ⟨_, rfl⟩

/-- If no product of a program lacks an operand, the optimizer does not fault on it. -/
theorem run_ok {program : Program} (whole : Whole program.code) (o : Options) :
    ∃ final, run o program = .ok final := by
  obtain ⟨s, cycled⟩ := cycles_ok (s := .start program) whole o (o.cycleLimit program.size)
    (o.cycleLimit program.size)
  rw [run_eq, cycled]
  exact ⟨_, rfl⟩

end Optimizer

end MipsFlow
