import MipsFlow.Proofs.Survival

/-!
# Effects survive

Labels, directives, comments, stores, calls, requests to the system and commands that are not
understood are the skeleton of a program. The optimizer never drops, repeats, reorders or makes up
any of them. Labels, directives, comments and commands that are not understood stay as they are; the
others may read other registers, but keep their mnemonics, literals and symbols
(`Optimizer.effects_survive`).
-/

namespace MipsFlow

namespace Command

variable {c d e : Command}

/-- The commands are the same but for registers that they read. -/
structure Rereads (c d : Command) : Prop where
  mnemonic : d.mnemonic = c.mnemonic
  form : d.form? = c.form?
  length : d.args.length = c.args.length
  args : ∀ i o, c.args[i]? = some o → d.args[i]? = some o ∨
    ∃ r r', readAt? c.form? i o = some r ∧ d.args[i]? = some (o.withBase r')

theorem Rereads.trans (first : c.Rereads d) (second : d.Rereads e) : c.Rereads e := by
  refine ⟨second.mnemonic.trans first.mnemonic, second.form.trans first.form,
    second.length.trans first.length, fun i o here => ?_⟩
  rcases first.args i o here with same | ⟨r, r', read, renamed⟩
  · rcases second.args i o same with same' | ⟨q, q', read, renamed⟩
    · exact Or.inl same'
    · exact Or.inr ⟨q, q', first.form ▸ read, renamed⟩
  · rcases second.args i _ renamed with same | ⟨q, q', -, again⟩
    · exact Or.inr ⟨r, r', read, same⟩
    · refine Or.inr ⟨r, q', read, again.trans (congrArg some ?_)⟩
      cases o <;> rfl

theorem rereads_renameReads (c : Command) (a b : Reg) : c.Rereads (c.renameReads a b) := by
  refine ⟨rfl, form?_renameReads, length_renameReads, fun i o here => ?_⟩
  rw [getElem?_renameReads, here, Option.map_some]
  split
  · next read => exact Or.inr ⟨a, b, read, rfl⟩
  · exact Or.inl rfl

theorem hasEffect_withArgs {args : List Operand}
    (form : ({ c with args } : Command).form? = c.form?) :
    ({ c with args } : Command).hasEffect = c.hasEffect := by
  simp only [hasEffect, isForeign, form]
  rfl

theorem hasEffect_of_form {form : Form} (known : c.form? = some form)
    (silent : c.isStore = false ∧ c.leavesCode = false) : c.hasEffect = false := by
  simp [hasEffect, silent, isForeign_eq_false.2 ⟨form, known⟩]

end Command

namespace Instr

variable {p q r : Instr}

/-- The instruction is part of the skeleton. -/
def hasEffect (p : Instr) : Bool := p.command?.all Command.hasEffect

/-- The second instruction is the first one, which may read other registers if it is a command that
is understood. -/
structure Persists (p q : Instr) : Prop where
  id : q.id = p.id
  comment : q.comment = p.comment
  content : q.content = p.content ∨ ∃ c d, p.content = .command c ∧ q.content = .command d ∧
    c.isForeign = false ∧ c.Rereads d

theorem Persists.of_bare (same : q.bare = p.bare) : p.Persists q :=
  ⟨id_of_bare same, comment_of_bare same, Or.inl (content_of_bare same)⟩

theorem Persists.trans (first : p.Persists q) (second : q.Persists r) : p.Persists r := by
  refine ⟨second.id.trans first.id, second.comment.trans first.comment, ?_⟩
  rcases first.content with same | ⟨c, d, isCommand, isCommand', known, rereads⟩
  · rw [← same]
    exact second.content
  · rcases second.content with same | ⟨d', e, isCommand'', isCommand''', -, rereads'⟩
    · exact Or.inr ⟨c, d, isCommand, same.trans isCommand', known, rereads⟩
    · cases isCommand'.symm.trans isCommand''
      exact Or.inr ⟨c, e, isCommand, isCommand''', known, rereads.trans rereads'⟩

end Instr

/-- The skeleton is under protection, and nothing of it may be lost. -/
def Ward.effects : Ward where
  covers := Instr.hasEffect
  Heir := Instr.Persists
  Lost _ := False
  heirs := Instr.Persists.trans
  loses _ := id
  bare same := ⟨by simp only [Instr.hasEffect, Instr.command?, Instr.content_of_bare same],
    fun _ => .of_bare same⟩

namespace Redundancy

variable {v : View} {next : Nat} {p : Instr} {c : Command} {rest : List Instr} {w : Substitution}

/-- Another destination does not change the roles of the operands. -/
theorem form?_redirected {t a : Reg} {args : List Operand} (shape : c.args = .reg t :: args)
    (defs : c.defs = [t]) (argument : a.isArgument = true) :
    Command.form? { c with args := .reg a :: args } = c.form? := by
  -- neither command divides into the multiplier with three operands
  have plain : (c.isMultiplierDivision && c.args.length = 3) = false := by
    rw [Bool.eq_false_iff]
    intro divides
    have known : c.form? = some .multiplierAfterZero := by
      rw [Command.form?, if_pos divides]
    have implied : c.defs = [Reg.hi, Reg.lo] := by
      rw [Command.defs, known]
      rfl
    rw [defs] at implied
    cases implied
  have plain' : (Command.isMultiplierDivision { c with args := .reg a :: args } &&
      (Command.args { c with args := .reg a :: args }).length = 3) = false := by
    have other : (Operand.reg a).isReg Reg.zero = false := by
      simpa [Operand.isReg, Operand.reg?, Reg.isZero] using nonzero_of_isArgument argument
    rcases args with _ | ⟨_, _ | ⟨_, _ | ⟨_, _⟩⟩⟩
    case cons.cons.nil => simp [Command.isMultiplierDivision, other]
    all_goals simp
  unfold Command.form?
  rw [plain, plain', shape]
  rfl

theorem hasEffect_load {d : Command} {x y : Operand} (loads : d.isLoad = true)
    (args : d.args = [x, y]) : d.hasEffect = false :=
  Command.hasEffect_of_form (Command.form?_of_isLoad loads args) (Command.silent_of_isLoad loads).2

theorem hasEffect_shift {x y z : Operand} (shifts : c.isShift = true) (args : c.args = [x, y, z]) :
    c.hasEffect = false :=
  Command.hasEffect_of_form (Command.form?_of_isShift shifts args)
    (Command.silent_of_isArith (Command.isArith_of_isShift shifts)).2

/-- No rule touches the skeleton. -/
theorem rule_keeps_effects {rule : Rule} (isRule : rule ∈ rules) (command : p.command? = some c)
    (applies : rule v next p c rest = some w) :
    Ward.effects.Keeps ((p :: rest).take w.count) w.repl := by
  have idle {q : Instr} {d : Command} (command : q.command? = some d)
      (silent : d.hasEffect = false) : Ward.effects.covers q = false := by
    simp [Ward.effects, Instr.hasEffect, command, silent]
  simp only [rules, List.mem_cons, List.not_mem_nil, or_false] at isRule
  rcases isRule with rfl | rfl | rfl | rfl | rfl | rfl | rfl
  · obtain ⟨a, rfl, count, repl, -⟩ := dropSelfCopy_eq_some applies
    rw [count, repl]
    exact .of_none (List.forall_mem_singleton.2 (idle command rfl)) (List.forall_mem_nil _)
  · obtain ⟨a, b, q, others, d, rfl, rfl, command', known, stays, first, second, written, sites,
      count, repl, -⟩ := readThroughCopy_eq_some applies
    rw [count, repl]
    obtain ⟨form, isForm, defs, -, -⟩ := folded_form first second written sites
    have silent : d.hasEffect = false := by
      refine Command.hasEffect_of_form isForm ?_
      exact Command.silent_of_defs isForm (by simp [defs]) stays
    have silent' : Command.hasEffect { d with args := d.args.set 1 (.reg b) } = false :=
      (Command.hasEffect_withArgs (Command.form?_set_args 0 _)).trans silent
    exact .of_none (List.forall_mem_cons.2 ⟨idle command rfl,
      List.forall_mem_singleton.2 (idle command' silent)⟩)
      (List.forall_mem_singleton.2 (idle rfl silent'))
  · obtain ⟨t, args, a, q, r, others, call, shape, rfl, command', -, -, pure, defs, argument, -, -,
      -, count, repl, -⟩ := computeArgument_eq_some applies
    rw [count, repl]
    have silent := Command.hasEffect_of_isPure pure
    have silent' : Command.hasEffect { c with args := .reg a :: args } = false :=
      (Command.hasEffect_withArgs (form?_redirected shape defs argument)).trans silent
    exact .of_none (List.forall_mem_cons.2 ⟨idle command silent,
      List.forall_mem_singleton.2 (idle command' rfl)⟩)
      (List.forall_mem_singleton.2 (idle rfl silent'))
  · obtain ⟨a, b, q, others, rfl, rfl, command', count, repl, -⟩ := dropCopyBack_eq_some applies
    rw [count, repl]
    exact (Ward.Keeps.refl _ [p]).append (.of_none (List.forall_mem_singleton.2 (idle command' rfl))
      (List.forall_mem_nil _))
  · obtain ⟨store, load, value, offset, base, q, others, d, stores, undoes, args, rfl, command',
      loads, sameArgs, count, repl, -⟩ := dropReload_eq_some applies
    rw [count, repl]
    have silent : d.hasEffect = false :=
      hasEffect_load (isLoad_of_matchingLoad? stores loads undoes).2 (sameArgs.trans args)
    exact (Ward.Keeps.refl _ [p]).append (.of_none
      (List.forall_mem_singleton.2 (idle command' silent)) (List.forall_mem_nil _))
  · obtain ⟨a, b, shifts, args, -, count, repl⟩ := simplifyShift_eq_some applies
    rw [count]
    have silent : c.hasEffect = false := hasEffect_shift shifts args
    rcases repl with ⟨-, repl, -⟩ | ⟨-, repl, -⟩
    all_goals
      rw [repl]
      refine .of_none (List.forall_mem_singleton.2 (idle command silent)) ?_
    · exact List.forall_mem_nil _
    · exact List.forall_mem_singleton.2 (idle rfl rfl)
  · obtain ⟨a, n, dst, m, q, others, d, args, isOp, rfl, command', loads, args', -, count, repl,
      -⟩ := foldOffset_eq_some applies
    rw [count, repl]
    obtain ⟨load, -, -, -, isForm, quiet⟩ := readsMemory_form loads args'
    have silent : c.hasEffect = false := by
      rcases isOp with isOp | isOp
      all_goals
        rw [Command.eq_ofOpcode isOp args]
        exact Folding.hasEffect_of_mem_reducible (by simp [Folding.reducible]) _ _ _
    have silent' : d.hasEffect = false :=
      Command.hasEffect_of_form isForm (Bool.or_eq_false_iff.1 quiet)
    have silent'' : Command.hasEffect { d with args := [dst, .mem (.number (m + n)) a] } = false :=
      (Command.hasEffect_withArgs (Command.form?_exchange_second args')).trans silent'
    exact .of_none (List.forall_mem_cons.2 ⟨idle command silent,
      List.forall_mem_singleton.2 (idle command' silent')⟩)
      (List.forall_mem_singleton.2 (idle rfl silent''))

end Redundancy

namespace Optimizer

variable {o : Options} {program : Program} {final : State}

/-- The passes keep the skeleton, whatever is reserved. -/
theorem effects_respected (reserved : FactSet Reg) (met : List Instr → List Instr → Prop) :
    Ward.effects.Respected reserved met where
  idle command silent _ := by simp [Ward.effects, Instr.hasEffect, command, silent]
  rule _ command isRule applies _ := Redundancy.rule_keeps_effects isRule command applies
  reread {annotated copy note p d} _ _ command unread := by
    have renamed := Propagation.command?_reread annotated copy note command
    refine ⟨by simp [Ward.effects, Instr.hasEffect, command, renamed], fun _ => ?_⟩
    have becomes : p.Becomes annotated (Propagation.reread annotated copy note p) :=
      Propagation.reread_becomes command
    refine ⟨becomes.id, becomes.comment, ?_⟩
    cases foreign : d.isForeign with
    | true =>
      refine Or.inl ((Instr.content_of_command renamed).trans ?_)
      rw [Instr.content_of_command command, Command.renameReads_of_not_mem_uses (unread foreign)]
    | false =>
      exact Or.inr ⟨d, _, Instr.content_of_command command, Instr.content_of_command renamed,
        foreign, Command.rereads_renameReads d copy.dst copy.src⟩

/-- The effectful skeleton survives. Take any program and any options, and let the run converge or
give up. The labels, directives, comments, stores, calls, requests to the system and commands that
are not understood and do not jump are the same ones in the result as in the program, in the same
order: no identity is missing, new or in another place. Labels, directives, comments and commands
that are not understood are unchanged, with the comments behind them; the other commands have kept
their mnemonic and every operand but for the registers that they read. -/
theorem effects_survive (ran : run o program = .ok final) :
    (final.program.code.filter Instr.hasEffect).map Instr.id =
        (program.code.filter Instr.hasEffect).map Instr.id ∧
      List.Forall₂ Instr.Persists (program.code.filter Instr.hasEffect)
        (final.program.code.filter Instr.hasEffect) := by
  have keeps := (run_respects (effects_respected _ _) ran).1
  have each : List.Forall₂ Instr.Persists (program.code.filter Instr.hasEffect)
      (final.program.code.filter Instr.hasEffect) :=
    Inherits.forall₂ keeps fun _ _ lost => lost
  refine ⟨?_, each⟩
  generalize program.code.filter Instr.hasEffect = a at each
  generalize final.program.code.filter Instr.hasEffect = b at each
  induction each with
  | nil => rfl
  | cons here _ ih => exact congrArg₂ List.cons here.id ih

/-- A copy goes, and a store and a call that have read it read its source. A command that is not
understood keeps reading it. The run gives up after one cycle. -/
theorem effects_survive_store :
    let program : Program := ⟨[⟨1, .label "f", "entry", []⟩,
      .ofCommand 2 (.copy (.general 8) (.general 16)),
      .ofCommand 3 (.ofOpcode .sw [.reg (.general 8), .mem (.symbol "x") (.general 8)]),
      .ofCommand 4 (.ofOpcode .jalr [.reg (.general 8)]),
      .ofCommand 5 ⟨.unknown "frob", [.reg (.general 9)]⟩,
      .ofCommand 6 (.ofOpcode .jr [.reg Reg.link])], 7⟩
    let left : List Instr := [⟨1, .label "f", "entry", []⟩,
      .ofCommand 3 (.ofOpcode .sw [.reg (.general 16), .mem (.symbol "x") (.general 16)]),
      .ofCommand 4 (.ofOpcode .jalr [.reg (.general 16)]),
      .ofCommand 5 ⟨.unknown "frob", [.reg (.general 9)]⟩,
      .ofCommand 6 (.ofOpcode .jr [.reg Reg.link])]
    ∃ final, run { maxCycles := 1 } program = .ok final ∧ final.notConverging = some 1 ∧
      final.program.code = left ∧ List.Forall₂ Instr.Persists (program.code.filter Instr.hasEffect)
        (final.program.code.filter Instr.hasEffect) := by
  intro program left
  have shown : ((run { maxCycles := 1 } program).toOption.map fun s =>
      (s.notConverging, s.program.code)) = some (some 1, left) := by decide +kernel
  obtain ⟨final, ran, isShown⟩ := Option.map_eq_some_iff.1 shown
  have ran := ok_of_toOption ran
  obtain ⟨stopped, code⟩ := Prod.mk.inj isShown
  exact ⟨final, ran, stopped, code, (effects_survive ran).2⟩

end Optimizer

end MipsFlow
