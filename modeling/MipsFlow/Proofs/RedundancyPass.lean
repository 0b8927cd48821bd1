import MipsFlow.Proofs.GuardedPeephole
import MipsFlow.Proofs.Lightening

/-!
# Redundancy elimination in a block

Each rule of the redundancy pass exchanges a window for one that needs no more registers, unless it
computes an argument in place with a command that reads the operand that gives way (`Misdirects`,
`rule_live`). The windows that the pass meets with on its way are named (`Exchanges`, `Meets`), so
that it lightens the code of a block if it misdirects no command (`redundancy_lightens`). In any
case it reworks the code (`leads_reworks`), and in direct code it misdirects none
(`not_misdirects`).

On the machine each rule refits its window (`rule_refits`), and so does the pass
(`redundancy_refits`). The machine runs no copy to the zero register and no call, so the two
exceptions to the exactness of the rules do not arise.
-/

namespace MipsFlow

namespace Redundancy

variable {v : View} {next : Nat} {p : Instr} {c : Command} {rest code : List Instr}
variable {w : Substitution}

/-! ## Where a rule applies -/

/-- The rule that is applied, and the place. -/
theorem firstSubstitution?_eq_some {i : Nat}
    (found : firstSubstitution? v next code = some (i, w)) :
    ∃ before p rest c rule, code = before ++ p :: rest ∧ before.length = i ∧
      p.command? = some c ∧ rule ∈ rules ∧ rule v next p c rest = some w := by
  induction code generalizing i with
  | nil => simp [firstSubstitution?] at found
  | cons p rest ih =>
    unfold firstSubstitution? at found
    split at found
    · next here =>
      cases found
      unfold substitutionHere? at here
      obtain ⟨c, command, applies⟩ := Option.bind_eq_some_iff.1 here
      obtain ⟨rule, member, isRule⟩ := List.exists_of_findSome?_eq_some applies
      exact ⟨[], p, rest, c, rule, rfl, rfl, command, member, isRule⟩
    · obtain ⟨⟨j, w'⟩, later, shifted⟩ := Option.map_eq_some_iff.1 found
      cases shifted
      obtain ⟨before, q, others, c, rule, isCode, length, command, member, applies⟩ := ih later
      exact ⟨p :: before, q, others, c, rule, by simp [isCode], by simp [length], command, member,
        applies⟩

/-- The folded command reads the source of the copy, and what it read before but for the copy. -/
theorem uses_folded {d : Command} {a b r : Reg} (stays : d.isJump = false)
    (first : d.args[0]? = some (.reg a)) (second : d.args[1]? = some (.reg a))
    (written : a ∈ d.defs) (sites : d.readSites.filter (·.reg = a) = [⟨1, a⟩])
    (read : r ∈ Command.uses { d with args := d.args.set 1 (.reg b) }) :
    r = b ∨ r ∈ d.uses ∧ r ≠ a := by
  obtain ⟨form, isForm, -, named, -⟩ := folded_form first second written sites
  have sameForm : Command.form? { d with args := d.args.set 1 (.reg b) } = some form :=
    (Command.form?_set_args 0 _).trans isForm
  have returns : Command.isReturn { d with args := d.args.set 1 (.reg b) } = false :=
    Command.isReturn_of_stays stays
  unfold Command.uses at read
  rw [List.mem_eraseDups, sameForm, returns] at read
  simp only [named, Option.elim_some, List.append_nil, Bool.false_eq_true, if_false,
    List.mem_map] at read
  obtain ⟨site, member, rfl⟩ := read
  obtain ⟨o, here, isRead⟩ := Command.mem_readSites.1 member
  rw [sameForm, ← isForm] at isRead
  simp only [List.getElem?_set] at here
  split at here
  · next isSecond =>
    split at here
    · obtain rfl := Option.some.inj here
      left
      simp only [Command.readAt?] at isRead
      split at isRead
      · exact (Option.some.inj isRead).symm
      · contradiction
    · contradiction
  · next other =>
    refine Or.inr ⟨Command.mem_uses_of_readAt here isRead, ?_⟩
    intro isCopied
    have same : site ∈ d.readSites.filter (·.reg = a) :=
      List.mem_filter.2 ⟨Command.mem_readSites.2 ⟨o, here, isRead⟩, by simpa using isCopied⟩
    rw [sites, List.mem_singleton] at same
    rw [same] at other
    exact other rfl

theorem defs_folded {d : Command} {a b : Reg} (first : d.args[0]? = some (.reg a))
    (second : d.args[1]? = some (.reg a)) (written : a ∈ d.defs)
    (sites : d.readSites.filter (·.reg = a) = [⟨1, a⟩]) :
    Command.defs { d with args := d.args.set 1 (.reg b) } = d.defs := by
  obtain ⟨form, isForm, defs, -, -⟩ := folded_form first second written sites
  have sameForm : Command.form? { d with args := d.args.set 1 (.reg b) } = some form :=
    (Command.form?_set_args 0 _).trans isForm
  have target : Command.regsAt { d with args := d.args.set 1 (.reg b) } form.defs =
      d.regsAt form.defs := by
    rw [defs]
    refine List.filterMap_congr fun i position => ?_
    rw [List.mem_singleton.1 position, List.getElem?_set_ne (by decide)]
  unfold Command.defs
  rw [sameForm, isForm]
  simp only [target]

/-! ## The rules -/

section Windows

variable {V M : Type} {I : Interpretation V M}

/-- A copy that does not go to the zero register loses nothing. -/
theorem not_losesZero_of_target {s : MachineState V M}
    (target : ∀ a b, c = .copy a b → a.isZero = false) : ¬ LosesZero I s c rest := by
  rintro ⟨b, isCopy, -, -⟩
  exact absurd (target _ _ isCopy) (by decide)

/-- The rules that look at the instructions alone leave the window as it is, but for copies to the
zero register. -/
theorem agree_of_factFree (laws : I.MovesData) {rule : Rule} (member : rule ∈ factFree)
    (target : ∀ a b, c = .copy a b → a.isZero = false) (command : p.command? = some c)
    (applies : rule v next p c rest = some w) (live : FactSet Reg) (s : MachineState V M) :
    AgreeOn I live (I.execAll ((p :: rest).take w.count) s) (I.execAll w.repl s) := by
  rw [(execAll_window_iff laws member command applies).2 (not_losesZero_of_target target)]
  exact .refl ..

/-- Folding an increment into the address behind it leaves what is live behind the window. -/
theorem agree_of_foldOffset (laws : I.AddsOffsets) (reserves : Reg.zero ∈ v.reserved)
    (sees : v.unresolved = false) (command : p.command? = some c)
    (applies : foldOffset v next p c rest = some w) (s : MachineState V M) :
    AgreeOn I (Liveness.liveIn v.reserved false v.liveOut ((p :: rest).drop w.count))
      (I.execAll ((p :: rest).take w.count) s) (I.execAll w.repl s) := by
  obtain ⟨mem, same⟩ := (foldOffset_window (s := s) laws reserves command applies).2
  refine ⟨mem, fun r live => same r ?_⟩
  rw [Bool.eq_false_iff]
  intro dead
  refine (Liveness.not_mem_liveIn_of_dead dead).2 ?_
  rwa [sees]

end Windows

/-- The rules that look at the instructions alone leave the window as it is. -/
theorem ends_of_factFree {rule : Rule} (member : rule ∈ factFree) (runs : Machine.Understood c)
    (command : p.command? = some c) (applies : rule v next p c rest = some w)
    (live : FactSet Reg) (places : String → Option Nat) (s : Machine.State) :
    AgreeOn (Machine.meaning places) live
      ((Machine.meaning places).execAll ((p :: rest).take w.count) s)
      ((Machine.meaning places).execAll w.repl s) :=
  agree_of_factFree (wordsMoveData (Machine.goes places)) member
    (fun _ _ isCopy => (isCopy ▸ runs).copy_inv.1.2) command applies live s

theorem isPlain_copy {a b : Reg} (command : p.command? = some (.copy a b)) : p.isPlain = true :=
  Instr.isPlain_of_command command rfl

theorem dropSelfCopy_lightens (command : p.command? = some c)
    (applies : dropSelfCopy v next p c rest = some w) :
    WindowLightens ((p :: rest).take w.count) w.repl := by
  obtain ⟨a, rfl, count, repl, -⟩ := dropSelfCopy_eq_some applies
  rw [count, repl]
  refine ⟨⟨by simp, ?_, by simp, ⟨by simp, by simp⟩⟩, fun live => live_drop ?_ live⟩
  · simpa using isPlain_copy command
  · intro r written
    rwa [uses_of_command command, Command.uses_copy, ← Command.defs_copy a a,
      ← defs_of_command command]

theorem dropSelfCopy_refits (runs : Machine.Understood c) (command : p.command? = some c)
    (applies : dropSelfCopy v next p c rest = some w) :
    WindowRefits v ((p :: rest).take w.count) w.repl ((p :: rest).drop w.count) := by
  refine (dropSelfCopy_lightens command applies).refits
    (ends_of_factFree (by simp [factFree]) runs command applies _) ?_
  obtain ⟨a, -, -, repl, -⟩ := dropSelfCopy_eq_some applies
  simp [repl]

theorem dropCopyBack_lightens (command : p.command? = some c)
    (applies : dropCopyBack v next p c rest = some w) :
    WindowLightens ((p :: rest).take w.count) w.repl := by
  obtain ⟨a, b, q, others, rfl, rfl, follows, count, repl, -⟩ := dropCopyBack_eq_some applies
  rw [count, repl]
  refine ⟨⟨by simp, ?_, ?_, .of_content (by simp)⟩, fun live => live_drop_second ?_ live⟩
  · simpa using ⟨isPlain_copy command, isPlain_copy follows⟩
  · simpa using isPlain_copy command
  · intro r written
    rwa [uses_of_command command, Command.uses_copy, ← Command.defs_copy b a,
      ← defs_of_command follows]

theorem dropCopyBack_refits (runs : Machine.Understood c) (command : p.command? = some c)
    (applies : dropCopyBack v next p c rest = some w) :
    WindowRefits v ((p :: rest).take w.count) w.repl ((p :: rest).drop w.count) := by
  refine (dropCopyBack_lightens command applies).refits
    (ends_of_factFree (by simp [factFree]) runs command applies _) ?_
  obtain ⟨a, b, q, others, -, -, -, -, repl, -⟩ := dropCopyBack_eq_some applies
  simpa [repl] using Machine.runs_of_command command runs

theorem dropReload_lightens (command : p.command? = some c)
    (applies : dropReload v next p c rest = some w) :
    WindowLightens ((p :: rest).take w.count) w.repl := by
  obtain ⟨store, load, value, offset, base, q, others, d, stores, undoes, args, rfl, follows, loads,
    sameArgs, count, repl, -⟩ := dropReload_eq_some applies
  rw [count, repl]
  obtain ⟨isStore, isLoad⟩ := isLoad_of_matchingLoad? stores loads undoes
  have plain := Instr.isPlain_of_command command (Command.stays_of_isStore isStore).1
  have plain' := Instr.isPlain_of_command follows (Command.silent_of_isLoad isLoad).1
  refine ⟨⟨by simp, by simpa using ⟨plain, plain'⟩, by simpa using plain, .of_content (by simp)⟩,
    fun live => live_drop_second ?_ live⟩
  -- the load writes the register that the store reads
  intro r written
  have storeForm : c.form? = some .use := Command.form?_of_isStore isStore args
  have loadForm : d.form? = some .define := Command.form?_of_isLoad isLoad (sameArgs.trans args)
  rw [defs_of_command follows, Command.mem_defs] at written
  obtain ⟨form, known, target⟩ := written
  rw [loadForm] at known
  cases known
  rw [uses_of_command command]
  refine Command.mem_uses_of_readAt (i := 0) (by simp [args] : c.args[0]? = some value) ?_
  cases value <;>
    simp_all [Command.regsAt, Form.define, Operand.reg?, Command.readAt?, Form.use]

theorem dropReload_refits (runs : Machine.Understood c) (command : p.command? = some c)
    (applies : dropReload v next p c rest = some w) :
    WindowRefits v ((p :: rest).take w.count) w.repl ((p :: rest).drop w.count) := by
  refine (dropReload_lightens command applies).refits
    (ends_of_factFree (by simp [factFree]) runs command applies _) ?_
  have repl : w.repl = [p] := by
    obtain ⟨-, -, -, -, -, -, -, -, -, -, -, -, -, -, -, -, repl, -⟩ := dropReload_eq_some applies
    exact repl
  simpa [repl] using Machine.runs_of_command command runs

theorem simplifyShift_lightens (command : p.command? = some c)
    (applies : simplifyShift v next p c rest = some w) :
    WindowLightens ((p :: rest).take w.count) w.repl := by
  obtain ⟨a, b, shifts, args, nonzero, count, outcome⟩ := simplifyShift_eq_some applies
  have form : c.form? = some .binary := Command.form?_of_isShift shifts args
  have reads : b ∈ p.uses := by
    rw [uses_of_command command]
    exact Command.mem_uses_of_readAt (i := 1) (by simp [args] : c.args[1]? = some (.reg b))
      (by simp [Command.readAt?, form, Form.binary])
  have writes : p.defs = [a] := by
    rw [defs_of_command command, Command.defs, form]
    simp only [Command.regsAt, args]
    rfl
  have names : p.names = [a, b] := by
    rw [Instr.names_of_command command, Command.names, args]
    rfl
  have plain : p.isPlain = true := Instr.isPlain_of_command command
    (Command.silent_of_isArith (Command.isArith_of_isShift shifts)).1
  rw [count]
  rcases outcome with ⟨rfl, repl, -⟩ | ⟨-, repl, -⟩
  · rw [repl]
    refine ⟨⟨by simp, by simpa using plain, by simp, ⟨by simp, by simp⟩⟩,
      fun live => live_drop ?_ live⟩
    intro r written
    rw [writes, List.mem_singleton] at written
    rwa [written]
  · rw [repl]
    have copies : (Instr.ofCommand next (.copy a b)).command? = some (.copy a b) := rfl
    refine ⟨⟨by simp, by simpa using plain, by simpa using isPlain_copy copies,
      .copy copies fun r named => Or.inr ⟨p, by simp, by simpa [names] using named⟩⟩,
      fun live => live_replace ?_ ?_ live⟩
    · intro r read
      rw [uses_of_command copies, Command.uses_copy, List.mem_singleton] at read
      rwa [read]
    · intro r written
      rwa [defs_of_command copies, Command.defs_copy, ← writes]

theorem named_of_shift {a b : Reg} (runs : Machine.Understood c)
    (args : c.args = [.reg a, .reg b, .imm 0]) : Machine.Target a ∧ Machine.Named b := by
  cases runs <;> simp_all [Command.ofOpcode, Machine.Source]

theorem simplifyShift_refits (runs : Machine.Understood c) (command : p.command? = some c)
    (applies : simplifyShift v next p c rest = some w) :
    WindowRefits v ((p :: rest).take w.count) w.repl ((p :: rest).drop w.count) := by
  refine (simplifyShift_lightens command applies).refits
    (ends_of_factFree (by simp [factFree]) runs command applies _) ?_
  obtain ⟨a, b, -, args, -, -, outcome⟩ := simplifyShift_eq_some applies
  have named := named_of_shift runs args
  rcases outcome with ⟨-, repl, -⟩ | ⟨-, repl, -⟩
  · simp [repl]
  · simpa [repl] using Machine.runs_of_command (p := .ofCommand next (.copy a b)) rfl
      (Machine.understood_copy named.1 named.2)

/-- A command that the machine runs and that can take over a copy computes from registers. -/
theorem understood_folded {d : Command} {a b : Reg} (runs : Machine.Understood d)
    (named : Machine.Named b) (stays : d.isJump = false) (first : d.args[0]? = some (.reg a))
    (second : d.args[1]? = some (.reg a)) (written : a ∈ d.defs) :
    Machine.Understood { d with args := d.args.set 1 (.reg b) } := by
  cases runs with
  | literal d n => simp [Command.ofOpcode] at second
  | move d x target source => exact .move d (.reg b) target named
  | compute op d x y member target left right =>
    exact .compute op d (.reg b) y member target named right
  | multiply x y left right =>
    -- the multiplier's registers have no name
    have results : a ∈ [Reg.hi, Reg.lo] := written
    obtain rfl : x = .reg a := by simpa [Command.ofOpcode] using first
    simp only [List.mem_cons, List.not_mem_nil, or_false] at results
    rcases results with rfl | rfl <;>
      simp [Machine.Source, Machine.Named, Reg.isPseudo] at left
  | fetch d => simp [Command.ofOpcode] at second
  | store x n base => simp [Command.ofOpcode] at second
  | load d n base => simp [Command.ofOpcode] at second
  | branch op x y label isBranch =>
    rcases isBranch with rfl | rfl <;> exact absurd (stays.symm.trans rfl) Bool.false_ne_true
  | jump label => exact absurd (stays.symm.trans rfl) Bool.false_ne_true
  | ret op isJump =>
    rcases isJump with rfl | rfl <;> exact absurd (stays.symm.trans rfl) Bool.false_ne_true

theorem readThroughCopy_lightens (command : p.command? = some c)
    (applies : readThroughCopy v next p c rest = some w) :
    WindowLightens ((p :: rest).take w.count) w.repl := by
  obtain ⟨a, b, q, others, d, rfl, rfl, follows, -, stays, first, second, written, sites, count,
    repl, -⟩ := readThroughCopy_eq_some applies
  rw [count, repl]
  have renamed := Instr.command?_withCommand q { d with args := d.args.set 1 (.reg b) }
  have plain := isPlain_copy command
  have plain' := Instr.isPlain_of_command follows stays
  have plain'' := Instr.isPlain_of_command renamed stays
  have defs := defs_folded (b := b) first second written sites
  have stems : Stems [p, q] [q.withCommand { d with args := d.args.set 1 (.reg b) }] := by
    refine .same (p := q) (by simp) follows renamed (Command.form?_set_args 0 _) fun r named => ?_
    obtain ⟨o, present, isBase⟩ := List.mem_filterMap.1 named
    rcases List.mem_or_eq_of_mem_set present with old | rfl
    · refine Or.inr ⟨q, by simp, ?_⟩
      rw [Instr.names_of_command follows]
      exact List.mem_filterMap.2 ⟨o, old, isBase⟩
    · refine Or.inr ⟨p, by simp, ?_⟩
      obtain rfl := Option.some.inj isBase
      rw [Instr.names_of_command command]
      simp [Command.names, Command.copy, Command.ofOpcode, Operand.base?]
  refine ⟨⟨by simp, by simpa using ⟨plain, plain'⟩, by simpa using plain'', stems⟩,
    fun live => live_merge ?_ ?_ ?_ live⟩
  · intro r read
    rw [uses_of_command renamed] at read
    rw [uses_of_command command, defs_of_command command, uses_of_command follows,
      Command.uses_copy, Command.defs_copy, List.mem_singleton, List.mem_singleton]
    exact uses_folded stays first second written sites read
  · intro r isWritten
    rwa [defs_of_command renamed, defs, ← defs_of_command follows]
  · intro r isWritten
    rw [defs_of_command command, Command.defs_copy, List.mem_singleton] at isWritten
    rw [isWritten, defs_of_command renamed, defs]
    exact Or.inr written

theorem readThroughCopy_refits (runs : Machine.Understood c) (command : p.command? = some c)
    (runsRest : ∀ q ∈ rest, Machine.Runs q) (applies : readThroughCopy v next p c rest = some w) :
    WindowRefits v ((p :: rest).take w.count) w.repl ((p :: rest).drop w.count) := by
  refine (readThroughCopy_lightens command applies).refits
    (ends_of_factFree (by simp [factFree]) runs command applies _) ?_
  obtain ⟨a, b, q, others, d, rfl, rfl, follows, -, stays, first, second, written, -, -, repl, -⟩ :=
    readThroughCopy_eq_some applies
  have understood := understood_folded (runsRest q (List.mem_cons_self ..) d follows)
    runs.copy_inv.2 stays first second written
  simpa [repl] using Machine.runs_of_command (Instr.command?_withCommand q _) understood

/-- The loads that the machine runs. -/
theorem understood_load {d : Command} {dst : Operand} {m : Int64} {a : Reg}
    (runs : Machine.Understood d) (loads : d.readsMemory = true)
    (args : d.args = [dst, .mem (.number m) a]) :
    ∃ x, d = .ofOpcode .lw [.reg x, .mem (.number m) a] ∧ Machine.Target x ∧ Machine.Named a := by
  cases runs with
  | load d n base target named =>
    simp only [Command.ofOpcode, List.cons.injEq, Operand.mem.injEq, Offset.number.injEq,
      and_true] at args
    obtain ⟨rfl, rfl, rfl⟩ := args
    exact ⟨d, rfl, target, named⟩
  | literal d n => simp [Command.ofOpcode] at args
  | move d x target source =>
    simp only [Command.ofOpcode, List.cons.injEq, and_true] at args
    rw [args.2] at source
    exact source.elim
  | compute op d x y => simp [Command.ofOpcode] at args
  | multiply x y left right =>
    simp only [Command.ofOpcode, List.cons.injEq, and_true] at args
    rw [args.2] at right
    exact right.elim
  | fetch d => simp [Command.ofOpcode] at args
  | store x n base => exact absurd loads (by simp [Command.readsMemory, Command.isLoad,
      Command.has, Command.op?, Command.ofOpcode, Mnemonic.op?, Opcode.has, Opcode.traits])
  | branch op x y label => simp [Command.ofOpcode] at args
  | jump label => simp [Command.ofOpcode] at args
  | ret op => simp [Command.ofOpcode] at args

/-- The machine runs a load from another distance. -/
theorem understood_moved {d : Command} {dst : Operand} {m : Int64} {a : Reg}
    (runs : Machine.Understood d) (loads : d.readsMemory = true)
    (args : d.args = [dst, .mem (.number m) a]) (n : Int64) :
    Machine.Understood { d with args := [dst, .mem (.number n) a] } := by
  obtain ⟨x, rfl, target, named⟩ := understood_load runs loads args
  obtain rfl : dst = .reg x := by simpa [Command.ofOpcode] using args.symm
  exact .load x n a target named

theorem foldOffset_lightens (command : p.command? = some c)
    (applies : foldOffset v next p c rest = some w) :
    WindowLightens ((p :: rest).take w.count) w.repl := by
  obtain ⟨a, n, dst, m, q, others, d, args, adds, rfl, follows, loads, isLoad, -, count, repl, -⟩ :=
    foldOffset_eq_some applies
  let e : Command := { d with args := [dst, .mem (.number (m + n)) a] }
  replace repl : w.repl = [q.withCommand e] := repl
  rw [count, repl]
  obtain ⟨load, isOp, has, -, known, -⟩ := readsMemory_form loads isLoad
  have moves := Instr.command?_withCommand q e
  have known' : e.form? = some .define := (Command.form?_exchange_second isLoad).trans known
  have stays : d.isJump = false := by
    rw [Command.isJump, Command.has_of_op? isOp]
    cases load <;> simp [Opcode.has, Opcode.traits] at has ⊢
  have increments : c.uses = [a] ∧ c.defs = [a] ∧ c.isJump = false := by
    obtain ⟨mnemonic, operands⟩ := c
    simp only at args
    subst args
    rcases adds with isOp | isOp
    all_goals
      obtain rfl := Command.op?_eq_some.1 isOp
      exact ⟨rfl, rfl, rfl⟩
  have reads : e.uses = d.uses := by
    have returns : d.isReturn = false ∧ e.isReturn = false :=
      ⟨Command.isReturn_of_stays stays, Command.isReturn_of_stays (c := e) stays⟩
    have sites : e.readSites = d.readSites := by
      unfold Command.readSites
      rw [known, known', isLoad]
      rfl
    unfold Command.uses
    rw [sites, known, known', returns.1, returns.2]
  have writes : e.defs = d.defs := by
    unfold Command.defs
    rw [known, known']
    simp only [Command.regsAt, Form.define, e, isLoad, List.filterMap_cons,
      List.getElem?_cons_zero, List.filterMap_nil]
  have names : ∀ r ∈ e.names, r ∈ d.names := by
    intro r named
    simpa [Command.names, e, isLoad, Operand.base?] using named
  have plain := Instr.isPlain_of_command command increments.2.2
  have plain' := Instr.isPlain_of_command follows stays
  have plain'' := Instr.isPlain_of_command moves stays
  have stems : Stems [p, q] [q.withCommand e] :=
    .same (p := q) (by simp) follows moves (known'.trans known.symm) fun r named =>
      Or.inr ⟨q, by simp, (Instr.names_of_command follows).symm ▸ names r named⟩
  refine ⟨⟨by simp, by simpa using ⟨plain, plain'⟩, by simpa using plain'', stems⟩,
    fun live => live_merge ?_ ?_ ?_ live⟩
  · intro r read
    rw [uses_of_command moves, reads] at read
    rw [uses_of_command command, defs_of_command command, increments.1, increments.2.1,
      uses_of_command follows]
    exact or_iff_not_imp_left.2 fun other => ⟨read, other⟩
  · intro r written
    rw [defs_of_command follows, ← writes] at written
    rw [defs_of_command moves]
    exact written
  · intro r written
    rw [defs_of_command command, increments.2.1] at written
    rw [uses_of_command command, increments.1]
    exact Or.inl written

theorem foldOffset_refits (reserves : Reg.zero ∈ v.reserved) (sees : v.unresolved = false)
    (command : p.command? = some c) (runsRest : ∀ q ∈ rest, Machine.Runs q)
    (applies : foldOffset v next p c rest = some w) :
    WindowRefits v ((p :: rest).take w.count) w.repl ((p :: rest).drop w.count) := by
  refine (foldOffset_lightens command applies).refits (fun places s =>
    agree_of_foldOffset (wordsAddOffsets (Machine.goes places)) reserves sees command applies s) ?_
  obtain ⟨a, n, dst, m, q, others, d, -, -, rfl, follows, loads, isLoad, -, -, repl, -⟩ :=
    foldOffset_eq_some applies
  rw [repl]
  refine List.forall_mem_singleton.2 (Machine.runs_of_command (Instr.command?_withCommand q _) ?_)
  exact understood_moved (runsRest q (List.mem_cons_self ..) d follows) loads isLoad _

/-! ## Computing an argument -/

/-- A command that does not read its first operand reads the same wherever it writes. -/
theorem uses_withFirst {a t : Reg} {args : List Operand} {form : Form} (known : c.form? = some form)
    (shape : c.args = .reg t :: args) (nonzero : t.isZero = false) (target : a.isZero = false)
    (stays : c.isJump = false) (unread : 0 ∉ form.uses) : (c.withFirst a).uses = c.uses := by
  have sites : (c.withFirst a).readSites = c.readSites := by
    unfold Command.readSites
    rw [form?_withFirst known shape nonzero target, known]
    simp [Command.withFirst, shape, Command.readAt?, unread]
  unfold Command.uses
  rw [sites, form?_withFirst known shape nonzero target, known, Command.isReturn_of_stays stays,
    Command.isReturn_of_stays (c := c.withFirst a) stays]

/-- A direct command that writes the register of its first operand, and nothing else, does not read
that operand. -/
theorem unread_of_direct {t : Reg} {args : List Operand} {form : Form} (pure : c.isPure = true)
    (shape : c.args = .reg t :: args) (defs : c.defs = [t]) (known : c.form? = some form)
    (direct : c.isDirect = true) : 0 ∉ form.uses := by
  simp only [Command.isDirect, known, Option.all_some, Bool.and_eq_true, Bool.or_eq_true,
    List.isEmpty_iff, Bool.not_eq_true', Bool.eq_false_iff, ne_eq, List.contains_iff_mem,
    List.all_eq_true] at direct
  obtain ⟨writes | unread, named⟩ := direct
  · -- what is written besides the operands has no name in the source
    exfalso
    have implied : t ∈ form.impliedDefs := by
      have written : t ∈ c.defs := by simp [defs]
      obtain ⟨form', known', isOperand | isImplied⟩ := Command.mem_defs.1 written
      all_goals obtain rfl := Option.some.inj (known.symm.trans known')
      · simp [writes, Command.regsAt] at isOperand
      · exact isImplied
    have pseudo : t.isPseudo = true := by
      simp only [Command.isPure, Bool.and_eq_true, Bool.not_eq_true'] at pure
      rcases Command.form?_eq_some known with ⟨rfl, -⟩ | ⟨op, isOp, entry⟩
      · have both : t = .hi ∨ t = .lo := by simpa [Form.multiplierAfterZero] using implied
        rcases both with rfl | rfl <;> rfl
      · simp only [Command.has_of_op? isOp] at pure
        exact Opcode.impliedDefs_pseudo entry pure.1.1.1.2 pure.2 t implied
    have isNamed := named t (by simp [Command.names, shape, Operand.base?])
    exact isNamed pseudo
  · exact unread

/-- What becomes of the window where an argument is computed. -/
theorem computeArgument_reworks (reserves : Reg.zero ∈ v.reserved) (command : p.command? = some c)
    (applies : computeArgument v next p c rest = some w) :
    WindowReworks ((p :: rest).take w.count) w.repl := by
  obtain ⟨t, args, a, q, r, others, shape, rfl, copies, pure, defs, -, -, nonzero, target, -, count,
    isRepl⟩ := computeArgument_redirects reserves applies
  obtain ⟨form, known, -⟩ := redirected_form pure shape defs
  rw [count, isRepl]
  have redirected := Instr.command?_withCommand p (c.withFirst a)
  have stays := Command.isJump_of_isPure pure
  have plain := Instr.isPlain_of_command command stays
  have plain' := isPlain_copy copies
  have plain'' := Instr.isPlain_of_command redirected stays
  refine ⟨by simp, by simpa using ⟨plain, plain'⟩, by simpa using plain'', ?_⟩
  refine .same (p := p) (by simp) command redirected
    ((form?_withFirst known shape nonzero target).trans known.symm) fun r named => ?_
  have cases : r = a ∨ r ∈ c.names := by
    simp only [Command.names, Command.withFirst, shape, List.set_cons_zero, List.filterMap_cons,
      Operand.base?, List.mem_cons] at named ⊢
    exact named.imp_right Or.inr
  rcases cases with rfl | old
  · refine Or.inr ⟨q, by simp, ?_⟩
    rw [Instr.names_of_command copies]
    simp [Command.names, Command.copy, Command.ofOpcode, Operand.base?]
  · exact Or.inr ⟨p, by simp, (Instr.names_of_command command).symm ▸ old⟩

/-- An argument is computed in place by a command that reads the operand that gives way. It defines
the register of this operand, but through another one: it is `mtc1 x, x`, if it names registers that
the source can name and reads no operand that it writes. -/
inductive Misdirects : List Instr → List Instr → Prop
  | intro {p q : Instr} {c : Command} {t a : Reg} {args : List Operand} {form : Form} :
    p.command? = some c → q.command? = some (.copy a t) → c.args = .reg t :: args →
    c.isPure = true → c.defs = [t] → c.form? = some form → 0 ∈ form.uses →
    Misdirects [p, q] [p.withCommand (c.withFirst a)]

/-- A command that computes an argument needs no more than before, because its old destination is
not needed behind the copy. -/
theorem computeArgument_live (reserves : Reg.zero ∈ v.reserved) (command : p.command? = some c)
    (proper : ¬ Misdirects ((p :: rest).take w.count) w.repl)
    (applies : computeArgument v next p c rest = some w) {r : Reg}
    (live : r ∈ Liveness.liveIn v.reserved false (Liveness.liveIn v.reserved v.unresolved v.liveOut
      ((p :: rest).drop w.count)) w.repl) :
    r ∈ Liveness.liveIn v.reserved false (Liveness.liveIn v.reserved v.unresolved v.liveOut
      ((p :: rest).drop w.count)) ((p :: rest).take w.count) := by
  obtain ⟨t, args, a, q, x, others, shape, rfl, copies, pure, defs, other, free, nonzero, target,
    dead, count, isRepl⟩ := computeArgument_redirects reserves applies
  obtain ⟨form, known, -, -, single⟩ := redirected_form pure shape defs
  have stays := Command.isJump_of_isPure pure
  have unread : 0 ∉ form.uses := fun read => proper (by
    rw [count, isRepl]
    exact .intro command copies shape pure defs known read)
  have redirected := Instr.command?_withCommand p (c.withFirst a)
  have writes : (c.withFirst a).defs = [a] := by
    rw [Command.defs, form?_withFirst known shape nonzero target]
    simp only [Command.regsAt, single unread,
      Command.impliedDefs_of_defs known (by simp [single unread])]
    rw [Command.withFirst, shape]
    rfl
  rw [isRepl, count] at live
  rw [count]
  rw [mem_liveIn_one, uses_of_command redirected, defs_of_command redirected, writes,
    uses_withFirst known shape nonzero target stays unread] at live
  simp only [List.take_succ_cons, List.take_zero, List.drop_succ_cons, List.drop_zero] at live ⊢
  rw [Liveness.mem_liveIn_cons, mem_liveIn_one, Liveness.usesBefore_false, uses_of_command command,
    defs_of_command command, defs, defs_of_command copies, Command.defs_copy]
  rcases live with read | ⟨behind, kept⟩
  · exact Or.inl read
  · refine Or.inr ⟨Or.inr ⟨behind, kept⟩, Or.inr fun isOld => ?_⟩
    rw [List.mem_singleton.1 isOld] at behind
    exact (Liveness.not_mem_liveIn_of_dead dead).2 behind

/-- Every rule reworks its window. -/
theorem rule_reworks {rule : Rule} (reserves : Reg.zero ∈ v.reserved) (member : rule ∈ rules)
    (command : p.command? = some c) (applies : rule v next p c rest = some w) :
    WindowReworks ((p :: rest).take w.count) w.repl := by
  simp only [rules, List.mem_cons, List.not_mem_nil, or_false] at member
  rcases member with rfl | rfl | rfl | rfl | rfl | rfl | rfl
  · exact (dropSelfCopy_lightens command applies).toWindowReworks
  · exact (readThroughCopy_lightens command applies).toWindowReworks
  · exact computeArgument_reworks reserves command applies
  · exact (dropCopyBack_lightens command applies).toWindowReworks
  · exact (dropReload_lightens command applies).toWindowReworks
  · exact (simplifyShift_lightens command applies).toWindowReworks
  · exact (foldOffset_lightens command applies).toWindowReworks

/-- Every rule leaves a window that needs no more, if it misdirects no command. -/
theorem rule_live {rule : Rule} (reserves : Reg.zero ∈ v.reserved) (member : rule ∈ rules)
    (command : p.command? = some c) (proper : ¬ Misdirects ((p :: rest).take w.count) w.repl)
    (applies : rule v next p c rest = some w) {r : Reg}
    (live : r ∈ Liveness.liveIn v.reserved false (Liveness.liveIn v.reserved v.unresolved v.liveOut
      ((p :: rest).drop w.count)) w.repl) :
    r ∈ Liveness.liveIn v.reserved false (Liveness.liveIn v.reserved v.unresolved v.liveOut
      ((p :: rest).drop w.count)) ((p :: rest).take w.count) := by
  simp only [rules, List.mem_cons, List.not_mem_nil, or_false] at member
  rcases member with rfl | rfl | rfl | rfl | rfl | rfl | rfl
  · exact (dropSelfCopy_lightens command applies).live live
  · exact (readThroughCopy_lightens command applies).live live
  · exact computeArgument_live reserves command proper applies live
  · exact (dropCopyBack_lightens command applies).live live
  · exact (dropReload_lightens command applies).live live
  · exact (simplifyShift_lightens command applies).live live
  · exact (foldOffset_lightens command applies).live live

/-! ## Exchanges -/

/-- One change leads from the first code to the second. It exchanges this window. -/
def Exchanges (v : View) (x y : BlockCode) (window repl : List Instr) : Prop :=
  ∃ i w, firstSubstitution? v x.nextId x.code = some (i, w) ∧ step v x = some y ∧
    window = (x.code.drop i).take w.count ∧ repl = w.repl

/-- Changes lead from the first code to the second. -/
abbrev Leads (v : View) : BlockCode → BlockCode → Prop :=
  Relation.ReflTransGen fun x y => step v x = some y

/-- The elimination exchanges this window on the way to its result. -/
def Meets (v : View) (block : BlockCode) (window repl : List Instr) : Prop :=
  ∃ x y, Leads v block x ∧ Exchanges v x y window repl ∧ Leads v y (run v block)

section Exchanges

variable {block x y : BlockCode} {window repl : List Instr}

theorem leads_run (v : View) (block : BlockCode) : Leads v block (run v block) :=
  exhaust_induction (Leads v) (fun _ => .refl) (fun stepped later => .head stepped later) _ block

theorem exists_exchanges (stepped : step v x = some y) :
    ∃ window repl, Exchanges v x y window repl := by
  have isStep := stepped
  unfold step at isStep
  obtain ⟨⟨i, w⟩, found, -⟩ := Option.map_eq_some_iff.1 isStep
  exact ⟨_, _, i, w, found, stepped, rfl, rfl⟩

theorem Exchanges.stepped (exchanges : Exchanges v x y window repl) : step v x = some y := by
  obtain ⟨i, w, -, stepped, -⟩ := exchanges
  exact stepped

/-- An exchange edits a window by one of the rules. -/
theorem Exchanges.by_rule (exchanges : Exchanges v x y window repl) :
    ∃ before p rest c rule w, window = (p :: rest).take w.count ∧ repl = w.repl ∧
      p.command? = some c ∧ rule ∈ rules ∧ rule v x.nextId p c rest = some w ∧
      x.code = before ++ window ++ (p :: rest).drop w.count ∧
      y = ⟨Edit.splice v.annotated x.code before.length window.length repl w.note, w.nextId⟩ ∧
      y.code.map Instr.content =
        (before ++ repl ++ (p :: rest).drop w.count).map Instr.content := by
  obtain ⟨i, w, found, stepped, rfl, rfl⟩ := exchanges
  unfold step at stepped
  rw [found] at stepped
  cases stepped
  obtain ⟨before, p, rest, c, rule, isCode, rfl, command, member, applies⟩ :=
    firstSubstitution?_eq_some found
  have window : (x.code.drop before.length).take w.count = (p :: rest).take w.count := by
    rw [isCode, List.drop_left]
  refine ⟨before, p, rest, c, rule, w, window, rfl, command, member, applies, ?_, ?_, ?_⟩
  · rw [window, List.append_assoc, List.take_append_drop, isCode]
  · rw [window, List.length_take_of_le (count_le_length member applies)]
  · simp only [isCode]
    exact content_edited member applies before

/-- A step of the pass edits a window by one of the rules. -/
theorem step_eq_some (stepped : step v x = some y) :
    ∃ before p rest c rule w, p.command? = some c ∧ rule ∈ rules ∧
      rule v x.nextId p c rest = some w ∧
      x.code = before ++ (p :: rest).take w.count ++ (p :: rest).drop w.count ∧
      y = ⟨Edit.splice v.annotated x.code before.length ((p :: rest).take w.count).length w.repl
        w.note, w.nextId⟩ ∧
      y.code.map Instr.content =
        (before ++ w.repl ++ (p :: rest).drop w.count).map Instr.content := by
  obtain ⟨window, repl, exchanges⟩ := exists_exchanges stepped
  obtain ⟨before, p, rest, c, rule, w, rfl, rfl, edit⟩ := exchanges.by_rule
  exact ⟨before, p, rest, c, rule, w, edit⟩

/-- What the exchanges on the way to the result keep is kept on each part of this way. -/
theorem leads_related {R : BlockCode → BlockCode → Prop} (refl : ∀ x, R x x)
    (trans : ∀ {x y z}, R x y → R y z → R x z)
    (each : ∀ {x y window repl}, Exchanges v x y window repl → Meets v block window repl → R x y)
    (before : Leads v block x) (leads : Leads v x y) (onward : Leads v y (run v block)) :
    R x y := by
  induction leads with
  | refl => exact refl x
  | tail leads stepped ih =>
    obtain ⟨window, repl, exchanges⟩ := exists_exchanges stepped
    exact trans (ih (.head stepped onward))
      (each exchanges ⟨_, _, before.trans leads, exchanges, onward⟩)

/-! ## The pass -/

/-- An exchange reworks the code, and what it puts there stems from it. -/
theorem Exchanges.reworks (reserves : Reg.zero ∈ v.reserved)
    (exchanges : Exchanges v x y window repl) : Reworked x.code y.code ∧ Stems x.code y.code := by
  obtain ⟨before, p, rest, c, rule, w, rfl, rfl, command, member, applies, isCode, -, edited⟩ :=
    exchanges.by_rule
  have reworks := rule_reworks reserves member command applies
  have reworked := reworks.reworked before ((p :: rest).drop w.count)
  have stems := reworks.stems.around before ((p :: rest).drop w.count)
  rw [← isCode] at reworked stems
  exact ⟨reworked.trans (.same edited.symm), stems.trans (.of_map_content edited.symm)⟩

/-- An exchange lightens the code if it does not misdirect a command. -/
theorem Exchanges.lightens (reserves : Reg.zero ∈ v.reserved)
    (exchanges : Exchanges v x y window repl) (proper : ¬ Misdirects window repl) :
    Lightens v x.code y.code := by
  obtain ⟨before, p, rest, c, rule, w, rfl, rfl, command, member, applies, isCode, -, edited⟩ :=
    exchanges.by_rule
  have whole : Lightens v (before ++ (p :: rest).take w.count ++ (p :: rest).drop w.count)
      (before ++ w.repl ++ (p :: rest).drop w.count) :=
    (rule_reworks reserves member command applies).lightens before fun r live =>
      rule_live reserves member command proper applies live
  rw [← isCode] at whole
  exact whole.trans (.of_content edited.symm)

/-- Redundancy elimination reworks the code of a block, as far as it goes, and what it puts there
stems from it. -/
theorem leads_reworks (reserves : Reg.zero ∈ v.reserved) (leads : Leads v block x)
    (onward : Leads v x (run v block)) : Reworked block.code x.code ∧ Stems block.code x.code :=
  leads_related (R := fun x y => Reworked x.code y.code ∧ Stems x.code y.code)
    (fun x => ⟨.refl x.code, .refl x.code⟩)
    (fun first second => ⟨first.1.trans second.1, first.2.trans second.2⟩)
    (fun exchanges _ => exchanges.reworks reserves) .refl leads onward

/-- Redundancy elimination lightens the code of a block if it misdirects no command. -/
theorem redundancy_lightens (reserves : Reg.zero ∈ v.reserved)
    (proper : ∀ window repl, Meets v block window repl → ¬ Misdirects window repl) :
    Lightens v block.code (Redundancy.run v block).code :=
  leads_related (R := fun x y => Lightens v x.code y.code) (fun x => .refl x.code)
    (fun first second => first.trans second)
    (fun exchanges isMet => exchanges.lightens reserves (proper _ _ isMet)) .refl
    (leads_run v block) .refl

/-- In direct code no command is misdirected. -/
theorem not_misdirects (reserves : Reg.zero ∈ v.reserved)
    (direct : ∀ p ∈ block.code, p.isDirect = true) (isMet : Meets v block window repl) :
    ¬ Misdirects window repl := by
  obtain ⟨x, y, leads, exchanges, onward⟩ := isMet
  have stems := (leads_reworks reserves leads (.head exchanges.stepped onward)).2
  obtain ⟨before, p, rest, c, rule, w, -, -, -, -, -, isCode, -⟩ := exchanges.by_rule
  intro misdirects
  cases misdirects with
  | @intro p' _ _ _ _ _ _ command _ shape pure defs known read =>
    have isDirect := stems.direct direct p' (by simp [isCode])
    rw [Instr.isDirect, command] at isDirect
    exact unread_of_direct pure shape defs known isDirect read

end Exchanges

/-- Every rule refits its window. There are no calls, so no argument is computed for one. -/
theorem rule_refits {rule : Rule} (reserves : Reg.zero ∈ v.reserved) (sees : v.unresolved = false)
    (member : rule ∈ rules) (runs : ∀ q ∈ p :: rest, Machine.Runs q)
    (command : p.command? = some c) (applies : rule v next p c rest = some w) :
    WindowRefits v ((p :: rest).take w.count) w.repl ((p :: rest).drop w.count) := by
  have understood := runs p (List.mem_cons_self ..) c command
  have runsRest : ∀ q ∈ rest, Machine.Runs q := fun q later =>
    runs q (List.mem_cons_of_mem _ later)
  simp only [rules, List.mem_cons, List.not_mem_nil, or_false] at member
  rcases member with rfl | rfl | rfl | rfl | rfl | rfl | rfl
  · exact dropSelfCopy_refits understood command applies
  · exact readThroughCopy_refits understood command runsRest applies
  · obtain ⟨t, args, a, q, r, others, call, -, rfl, -, calls, isCall, -⟩ :=
      computeArgument_eq_some applies
    have stays := (runsRest r (by simp) call calls).known.2.1
    rw [Command.leavesCode, Bool.or_eq_false_iff] at stays
    exact absurd (isCall.symm.trans stays.1) Bool.false_ne_true.symm
  · exact dropCopyBack_refits understood command applies
  · exact dropReload_refits understood command applies
  · exact simplifyShift_refits understood command applies
  · exact foldOffset_refits reserves sees command runsRest applies

/-- Redundancy elimination refits the code of a block. -/
theorem redundancy_refits (reserves : Reg.zero ∈ v.reserved) (sees : v.unresolved = false)
    (block : BlockCode) : Refits v block.code (Redundancy.run v block).code := by
  refine Refits.exhaust (fun block block' stepped => ?_) _ block
  obtain ⟨before, p, rest, c, rule, w, command, member, applies, isCode, -, edited⟩ :=
    step_eq_some stepped
  intro runs
  rw [isCode] at runs ⊢
  have inside : ∀ q ∈ p :: rest, Machine.Runs q := fun q later => by
    rw [← List.take_append_drop w.count (p :: rest)] at later
    exact runs q (List.append_assoc before .. ▸ List.mem_append_right _ later)
  have window := rule_refits reserves sees member inside command applies
  exact ((window.refits before).trans (.of_content edited.symm)) runs

end Redundancy

end MipsFlow
