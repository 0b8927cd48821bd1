import MipsFlow.Proofs.Alarms
import MipsFlow.Proofs.DeadCodePass
import MipsFlow.Proofs.PropagationPass
import MipsFlow.Proofs.RedundancyPass
import MipsFlow.Proofs.SharingPass
import MipsFlow.Proofs.Trapping

/-!
# The passes on the machine with traps

What a pass over a block has to show for programs that the machine with traps runs: going on behind
the traps, the new code improves the old one, an overflow of the old code is one of the new code,
and the machine runs the new code (`Upholds`). A dead command that divides may be dropped, but what
overflows is never without effects.
-/

namespace MipsFlow

/-! ## Commands of the machine with traps -/

namespace Machine

variable {places : String → Option Nat} {c : Command} {s : State} {op : Opcode} {d t a b : Reg}
variable {x y : Operand} {p q : Instr} {code code' : List Instr}

namespace Admitted

/-- The commands that cannot stop the program are those of the machine without traps. -/
theorem understood_of_op (admitted : Admitted c) (isOp : c.op? = some op)
    (other : op ∉ Opcode.neg :: trapping) : Understood c := by
  cases admitted with
  | understood understood => exact understood
  | calculate op' d x y member =>
    obtain rfl : op' = op := Option.some.inj isOp
    exact absurd (List.mem_cons_of_mem _ member) other
  | negate d x =>
    obtain rfl : Opcode.neg = op := Option.some.inj isOp
    exact absurd (List.mem_cons_self ..) other

theorem copy_inv (admitted : Admitted (.copy a b)) : Target a ∧ Named b :=
  (admitted.understood_of_op rfl (by decide)).copy_inv

theorem copy (target : Target a) (named : Named b) : Admitted (.copy a b) :=
  .understood (understood_copy target named)

theorem renameReads (admitted : Admitted c) (named : Named b) (aside : a ≠ Reg.link) :
    Admitted (c.renameReads a b) := by
  cases admitted with
  | understood understood => exact .understood (understood.renameReads named aside)
  | calculate op d x y member target left right =>
    have form := form?_of_mem_trapping member target x y
    rw [Command.renameReads, form]
    exact .calculate op d _ _ member target (source_renamed left named) (source_renamed right named)
  | negate d x target source => exact .negate d _ target (source_renamed source named)

/-- An operation may go to another register. -/
theorem redirect {xs : List Operand} (admitted : Admitted (.ofOpcode op (.reg d :: xs)))
    (computes : op.Computes xs.length) (target : Target t) :
    Target d ∧ Admitted (.ofOpcode op (.reg t :: xs)) := by
  generalize isCommand : Command.ofOpcode op (.reg d :: xs) = c at admitted
  cases admitted with
  | understood understood =>
    subst isCommand
    obtain ⟨x, y, rfl, member, old, left, right⟩ := understood.of_computes computes
    exact ⟨old, .understood (.compute op t x y member target left right)⟩
  | calculate op d x y member old left right =>
    cases isCommand
    exact ⟨old, .calculate op t x y member target left right⟩
  | negate d x old source =>
    cases isCommand
    exact ⟨old, .negate t x target source⟩

/-- A command that can take over a copy computes from registers. -/
theorem folded {d : Command} {a b : Reg} (admitted : Admitted d) (named : Named b)
    (stays : d.isJump = false) (first : d.args[0]? = some (.reg a))
    (second : d.args[1]? = some (.reg a)) (written : a ∈ d.defs) :
    Admitted { d with args := d.args.set 1 (.reg b) } := by
  cases admitted with
  | understood understood =>
    exact .understood (Redundancy.understood_folded understood named stays first second written)
  | calculate op d x y member target left right =>
    exact .calculate op d (.reg b) y member target named right
  | negate d x target source => exact .negate d (.reg b) target named

/-- What has a known result writes that to a target. -/
theorem of_result? {k : Known} {w : Word} {rest : List Operand} (admitted : Admitted c)
    (args : c.args = .reg d :: rest) (found : k.result? c = some w) : Target d := by
  cases admitted with
  | understood understood => exact understood.of_result? args found
  | calculate _ _ _ _ _ target | negate _ _ target =>
    cases args
    exact target

/-- What a command is exchanged for when constants are folded. -/
theorem exchange {k : Known} {c' : Command} (exchange : Folding.Exchange k c c')
    (admitted : Admitted c) : Admitted c' := by
  have harmless : ∀ {op : Opcode}, op ∈ Folding.reducible → op ∉ Opcode.neg :: trapping := by
    intro op
    cases op <;> decide
  induction exchange with
  | result _ args found => exact .understood (.literal _ _ (admitted.of_result? args found))
  | literal takes =>
    have member := Folding.mem_of_takesLiteral takes
    exact .understood (Folding.understood_literal member (Or.inl rfl) _
      (admitted.understood_of_op (Command.op?_ofOpcode ..) (harmless member)))
  | swap takes =>
    have member := Folding.mem_of_takesLiteral takes
    exact .understood (Folding.understood_literal member (Or.inr rfl) _
      (admitted.understood_of_op (Command.op?_ofOpcode ..) (harmless member)))
  | simplify simpler =>
    exact .understood (Folding.understood_simplified? simpler
      (admitted.understood_of_op (Command.op?_ofOpcode ..)
        (harmless (Folding.mem_of_simplified? simpler))))
  | trans _ _ first second => exact second (first admitted)

end Admitted

/-! ## Overflows -/

/-- The code, run from the state by the machine that goes on behind traps, overflows somewhere. -/
def Strikes (places : String → Option Nat) (code : List Instr) (s : State) : Prop :=
  (onward places).Raises Overflows code s

/-- A command without effects does not overflow. -/
theorem not_overflows_of_isPure (pure : c.isPure = true) :
    ¬ Overflows ((onward places).inputs c s) := by
  intro overflows
  obtain ⟨op, isOp, traps⟩ := has_trap_of_overflows overflows
  have isOp : c.op? = some op := isOp
  simp [Command.isPure, Command.has_of_op? isOp, traps] at pure

theorem not_sounds_of_isPure (command : p.command? = some c) (pure : c.isPure = true) :
    ¬ (onward places).Sounds Overflows p s := by
  rw [Interpretation.sounds_of_command command]
  exact not_overflows_of_isPure pure

theorem strikes_append : Strikes places (code ++ code') s ↔
    Strikes places code s ∨ Strikes places code' ((onward places).execAll code s) :=
  Interpretation.raises_append

/-- What the machine with traps makes of the new code of a block: as far as anybody can tell behind
the block, it goes on as before, and it does not lose an overflow. -/
structure Upholds (v : View) (code code' : List Instr) : Prop where
  improves : ∀ places, Improves (onward places) v.reserved v.liveOut code code'
  strikes : ∀ places s, Strikes places code s → Strikes places code' s
  admits : ∀ p ∈ code', Admits p

namespace Upholds

variable {v : View} {code'' : List Instr}

theorem of_content (admits : ∀ p ∈ code, Admits p)
    (same : code.map Instr.content = code'.map Instr.content) : Upholds v code code' := by
  refine ⟨fun places => .of_content same, fun places s => (Interpretation.raises_congr same).1,
    fun q member c command => ?_⟩
  have content : q.content ∈ code.map Instr.content := same ▸ List.mem_map_of_mem member
  obtain ⟨p, inside, isSame⟩ := List.mem_map.1 content
  rw [← Interpretation.command?_congr isSame] at command
  exact admits p inside c command

theorem trans (first : Upholds v code code') (second : Upholds v code' code'') :
    Upholds v code code'' :=
  ⟨fun places => (first.improves places).trans (second.improves places),
    fun places s strikes => second.strikes places s (first.strikes places s strikes),
    second.admits⟩

/-- A pass that repeats a step upholds a block if every step does. -/
theorem exhaust {step : BlockCode → Option BlockCode}
    (upholds : ∀ block block', step block = some block' → (∀ p ∈ block.code, Admits p) →
      Upholds v block.code block'.code)
    (fuel : Nat) (block : BlockCode) (admits : ∀ p ∈ block.code, Admits p) :
    Upholds v block.code (MipsFlow.exhaust step fuel block).code :=
  exhaust_induction (fun a b => (∀ p ∈ a.code, Admits p) → Upholds v a.code b.code)
    (fun _ admits => .of_content admits rfl)
    (fun stepped later admits =>
      have first := upholds _ _ stepped admits
      first.trans (later first.admits)) fuel block admits

/-- Exchanging a window. -/
theorem inside (before : List Instr) {window repl rest : List Instr}
    (admits : ∀ p ∈ before ++ window ++ rest, Admits p)
    (lightens : WindowLightens window repl)
    (ends : ∀ places s, AgreeOn (onward places) (Liveness.liveIn v.reserved false v.liveOut rest)
      ((onward places).execAll window s) ((onward places).execAll repl s))
    (strikes : ∀ places s, Strikes places window s → Strikes places repl s)
    (admitsRepl : ∀ p ∈ repl, Admits p) :
    Upholds v (before ++ window ++ rest) (before ++ repl ++ rest) := by
  have known : ∀ p ∈ rest, p.isKnown = true := fun p member =>
    (admits p (List.mem_append_right _ member)).isKnown
  refine ⟨fun places => .inside before known
      (.of_plain (ends places) (fun _ => lightens.live) lightens.plain lightens.plain'),
    fun places s => Interpretation.raises_inside before known (ends places) (strikes places),
    fun p member => ?_⟩
  rcases List.mem_append.1 member with front | back
  · rcases List.mem_append.1 front with first | second
    · exact admits p (List.mem_append_left _ (List.mem_append_left _ first))
    · exact admitsRepl p second
  · exact admits p (List.mem_append_right _ back)

end Upholds

end Machine

open Machine

/-! ## Dead code elimination -/

namespace DeadCode

variable {v : View} {a b code : List Instr} {s t : Machine.State} {places : String → Option Nat}

/-- A dropped command is without effects, so it does not overflow. -/
theorem Cleans.strikes (cleans : Cleans v a b) (known : ∀ p ∈ a, p.isKnown = true)
    (agree : AgreeOn (onward places) (liveBefore v b) s t) (strikes : Strikes places a s) :
    Strikes places b t := by
  induction cleans generalizing s t with
  | nil => exact strikes
  | @keep p p' rest rest' same cleans ih =>
    obtain ⟨knownHere, knownRest⟩ := List.forall_mem_cons.1 known
    have content := Instr.content_of_bare same
    have knownNew : p'.isKnown = true := by
      rw [Instr.isKnown, Interpretation.command?_congr content]
      exact knownHere
    rcases strikes with here | later
    · obtain ⟨c, command, overflows⟩ := (Interpretation.sounds_congr content).2 here
      rw [Liveness.inputs_of_agree command agree] at overflows
      exact Or.inl ⟨c, command, overflows⟩
    · rw [← (onward places).execInstr_congr content] at later
      exact Or.inr (ih knownRest (Liveness.agree_execInstr knownNew agree).1 later)
  | @drop p c rest rest' command pure unwritten cleans ih =>
    obtain ⟨-, knownRest⟩ := List.forall_mem_cons.1 known
    rcases strikes with here | later
    · exact absurd here (not_sounds_of_isPure command pure)
    · exact ih knownRest (agree_of_isPure command pure unwritten agree) later

/-- Dead code elimination drops no overflow. -/
theorem deadCode_upholds (sees : v.unresolved = false) (admits : ∀ p ∈ code, Admits p) :
    Upholds v code (DeadCode.run v code) := by
  have tidy : v.unresolved = true → JumpsLast code := by simp [sees]
  have cleans := run_cleans tidy
  have known : ∀ p ∈ code, p.isKnown = true := fun p member => (admits p member).isKnown
  refine ⟨fun places => cleans.improves sees known, fun places s => cleans.strikes known (.refl ..),
    fun p' member c command => ?_⟩
  obtain ⟨p, inside, same⟩ := cleans.of_mem member
  rw [Interpretation.command?_congr (Instr.content_of_bare same)] at command
  exact admits p inside c command

end DeadCode

/-! ## Common subexpression elimination -/

namespace Sharing

variable {v : View} {a b code code' : List Instr} {s u : Machine.State} {t : Reg} {x : Word}
variable {places : String → Option Nat}

theorem shareable_admits : Shareable Admits := by
  intro p q op d t xs admits computes scratch becomes
  have free := target_of_mem_scratch scratch
  obtain ⟨target, redirected⟩ := (admits _ computes.command).redirect computes.computes free
  rcases becomes with copies | computesHere
  · exact admits_of_command copies (.copy target free.1)
  · exact admits_of_command computesHere.command redirected

theorem not_sounds_of_computes {p : Instr} {op : Opcode} {d : Reg} {xs : List Operand}
    (computes : p.Computes op d xs) : ¬ (onward places).Sounds Overflows p s :=
  not_sounds_of_isPure computes.command
    (Command.isPure_of_computes computes.nonzero computes.computes)

/-- Code with copies loses no overflow, since what became a copy cannot overflow. -/
theorem Shared.strikes (shared : Shared (onwardSemantics places) t x a b s)
    (scratch : t ∈ Reg.scratch) (agree : s.AgreeBut t u) (holds : u.read 0 t = x)
    (strikes : Strikes places a s) : Strikes places b u := by
  induction shared generalizing u with
  | nil => exact strikes
  | @keep p a b s unread unwritten _ ih =>
    obtain ⟨agree', kept⟩ :=
      agree_keep (S := onwardSemantics places) scratch unread unwritten agree holds
    refine strikes.imp (fun ⟨c, command, overflows⟩ => ⟨c, command, ?_⟩) (ih agree' kept)
    have same : (onward places).inputs c s = (onward places).inputs c u := by
      refine (onward places).inputs_congr (fun r read => ?_) agree.mem
      refine (onward places).read_congr (agree.regs r ?_)
      rintro rfl
      exact unread (by simpa [Instr.uses, command] using read)
    rwa [← same]
  | @copy p q op d xs a b s computes other same command _ ih =>
    obtain ⟨agree', kept⟩ :=
      agree_copy (S := onwardSemantics places) computes other same command agree holds
    exact Or.inr (ih agree' kept (strikes.resolve_left (not_sounds_of_computes computes)))

theorem Shares.strikes (shares : Shares v code code') (known : ∀ p ∈ code, p.isKnown = true)
    (strikes : Strikes places code s) : Strikes places code' s := by
  obtain @⟨before, mid, mid', after, p, h, c, op, d, t, xs, scratch, dead, -, unwritten, hoists,
    shared⟩ := shares
  have shared := shared (onwardSemantics places) s
  rw [Semantics.execAll_eq (I := onward places) rfl] at shared
  obtain ⟨agree, holds⟩ :=
    hoists.agree (onwardSemantics places) ((onward places).execAll before s)
  have behind := (hoists.follows scratch shared).1
  rw [Semantics.execAll_eq (I := onward places) rfl,
    Semantics.execAll_eq (I := onward places) rfl] at behind
  rw [strikes_append, strikes_append, Interpretation.execAll_append] at strikes ⊢
  rcases strikes with (first | here) | later
  · exact Or.inl (Or.inl first)
  · have copied := shared.strikes scratch agree holds
      (here.resolve_left (not_sounds_of_computes hoists.computes))
    exact Or.inl (Or.inr (Or.inr (Or.inr copied)))
  · have free := (unread_of_not_live unwritten dead).2
    have same : AgreeOn (onward places)
        (Liveness.liveIn v.reserved v.unresolved v.liveOut after) _ _ :=
      ⟨behind.mem, fun r live => (onward places).read_congr
        (behind.regs r (ne_of_mem_of_not_mem live free))⟩
    exact Or.inr ((Interpretation.raises_of_agree
      (fun q member => known q (List.mem_append_right _ member)) same).1 later)

/-- Common subexpression elimination loses no overflow. -/
theorem sharing_upholds (block : BlockCode) (admits : ∀ p ∈ block.code, Admits p) :
    Upholds v block.code (Sharing.run v block).code := by
  refine Upholds.exhaust (fun block block' stepped admits => ?_) _ block admits
  have shares := step_shares stepped
  exact ⟨fun places => shares.improves (S := onwardSemantics places) rfl rfl,
    fun places s => shares.strikes fun p member => (admits p member).isKnown,
    shares.all shareable_admits admits⟩

end Sharing

/-! ## Redundancy elimination -/

namespace Redundancy

variable {v : View} {next : Nat} {p : Instr} {c : Command} {rest code : List Instr}
variable {w : Substitution} {places : String → Option Nat} {s : Machine.State}

/-- What has to be shown of a window. -/
structure WindowUpholds (v : View) (window repl rest : List Instr) : Prop where
  lightens : WindowLightens window repl
  ends : ∀ places s, AgreeOn (onward places) (Liveness.liveIn v.reserved false v.liveOut rest)
    ((onward places).execAll window s) ((onward places).execAll repl s)
  strikes : ∀ places s, Strikes places window s → Strikes places repl s
  admits : ∀ p ∈ repl, Admits p

theorem not_sounds_of_op {op : Opcode} (command : p.command? = some c) (isOp : c.op? = some op)
    (safe : op.has .trap = false) : ¬ (onward places).Sounds Overflows p s := by
  rw [Interpretation.sounds_of_command command]
  intro overflows
  obtain ⟨op', isOp', traps⟩ := has_trap_of_overflows overflows
  obtain rfl : op = op' := Option.some.inj (isOp.symm.trans isOp')
  exact absurd (safe.symm.trans traps) Bool.false_ne_true

/-- A window of two commands that cannot overflow. -/
theorem not_strikes_of_two {q : Instr} {d : Command} {op op' : Opcode}
    (command : p.command? = some c) (isOp : c.op? = some op) (safe : op.has .trap = false)
    (follows : q.command? = some d) (isOp' : d.op? = some op') (safe' : op'.has .trap = false) :
    ¬ Strikes places [p, q] s := by
  rintro (first | second | none)
  · exact not_sounds_of_op command isOp safe first
  · exact not_sounds_of_op follows isOp' safe' second
  · exact none

theorem safe_of_matchingLoad? {store load : Opcode} (undoes : matchingLoad? store = some load) :
    store.has .trap = false ∧ load.has .trap = false := by
  cases store <;> simp [matchingLoad?] at undoes <;> subst undoes <;> exact ⟨by decide, by decide⟩

theorem has_of_load {op : Opcode} (loads : op.has .load = true) :
    op.has .trap = false ∧ op ∉ Opcode.neg :: trapping := by
  revert loads
  cases op <;> decide

theorem has_of_shift {op : Opcode} (shifts : op.has .shift = true) :
    op.has .trap = false ∧ op ∉ Opcode.neg :: trapping := by
  revert shifts
  cases op <;> decide

theorem ends_of_admitted {rule : Rule} (member : rule ∈ factFree) (admitted : Admitted c)
    (command : p.command? = some c) (applies : rule v next p c rest = some w)
    (places : String → Option Nat) (s : Machine.State) : AgreeOn (onward places)
      (Liveness.liveIn v.reserved false v.liveOut ((p :: rest).drop w.count))
      ((onward places).execAll ((p :: rest).take w.count) s) ((onward places).execAll w.repl s) :=
  agree_of_factFree (onward_addsOffsets places).toMovesData member
    (fun _ _ isCopy => (isCopy ▸ admitted).copy_inv.1.2) command applies _ s

theorem dropSelfCopy_upholds (admitted : Admitted c) (command : p.command? = some c)
    (applies : dropSelfCopy v next p c rest = some w) :
    WindowUpholds v ((p :: rest).take w.count) w.repl ((p :: rest).drop w.count) := by
  refine ⟨dropSelfCopy_lightens command applies,
    ends_of_admitted (by simp [factFree]) admitted command applies, fun places s => ?_, ?_⟩
  all_goals obtain ⟨a, rfl, count, repl, -⟩ := dropSelfCopy_eq_some applies
  · rw [count]
    exact fun strikes =>
      absurd (strikes.resolve_right id) (not_sounds_of_op command rfl (by decide))
  · simp [repl]

theorem dropCopyBack_upholds (admitted : Admitted c) (command : p.command? = some c)
    (applies : dropCopyBack v next p c rest = some w) :
    WindowUpholds v ((p :: rest).take w.count) w.repl ((p :: rest).drop w.count) := by
  refine ⟨dropCopyBack_lightens command applies,
    ends_of_admitted (by simp [factFree]) admitted command applies, fun places s => ?_, ?_⟩
  all_goals
    obtain ⟨a, b, q, others, rfl, rfl, follows, count, repl, -⟩ := dropCopyBack_eq_some applies
  · rw [count]
    exact fun strikes => absurd strikes
      (not_strikes_of_two command rfl (by decide) follows rfl (by decide))
  · simpa [repl] using admits_of_command command admitted

theorem dropReload_upholds (admitted : Admitted c) (command : p.command? = some c)
    (applies : dropReload v next p c rest = some w) :
    WindowUpholds v ((p :: rest).take w.count) w.repl ((p :: rest).drop w.count) := by
  refine ⟨dropReload_lightens command applies,
    ends_of_admitted (by simp [factFree]) admitted command applies, fun places s => ?_, ?_⟩
  all_goals
    obtain ⟨store, load, value, offset, base, q, others, d, stores, undoes, -, rfl, follows, loads,
      -, count, repl, -⟩ := dropReload_eq_some applies
  · obtain ⟨safe, safe'⟩ := safe_of_matchingLoad? undoes
    rw [count]
    exact fun strikes => absurd strikes
      (not_strikes_of_two command stores safe follows loads safe')
  · simpa [repl] using admits_of_command command admitted

theorem simplifyShift_upholds (admitted : Admitted c) (command : p.command? = some c)
    (applies : simplifyShift v next p c rest = some w) :
    WindowUpholds v ((p :: rest).take w.count) w.repl ((p :: rest).drop w.count) := by
  refine ⟨simplifyShift_lightens command applies,
    ends_of_admitted (by simp [factFree]) admitted command applies, fun places s => ?_, ?_⟩
  all_goals
    obtain ⟨a, b, shifts, args, -, count, outcome⟩ := simplifyShift_eq_some applies
    obtain ⟨op, isOp, isShift⟩ := Command.has_iff.1 shifts
    obtain ⟨safe, other⟩ := has_of_shift isShift
  · rw [count]
    exact fun strikes => absurd (strikes.resolve_right id) (not_sounds_of_op command isOp safe)
  · have named := named_of_shift (admitted.understood_of_op isOp other) args
    rcases outcome with ⟨-, repl, -⟩ | ⟨-, repl, -⟩
    · simp [repl]
    · simpa [repl] using admits_of_command (p := .ofCommand next (.copy a b)) rfl
        (.copy named.1 named.2)

/-- The command that takes over a copy has the inputs that it had behind the copy. -/
theorem readThroughCopy_upholds (admitted : Admitted c) (command : p.command? = some c)
    (admitsRest : ∀ q ∈ rest, Admits q) (applies : readThroughCopy v next p c rest = some w) :
    WindowUpholds v ((p :: rest).take w.count) w.repl ((p :: rest).drop w.count) := by
  refine ⟨readThroughCopy_lightens command applies,
    ends_of_admitted (by simp [factFree]) admitted command applies, fun places s => ?_, ?_⟩
  all_goals
    obtain ⟨a, b, q, others, d, rfl, rfl, follows, -, stays, first, second, written, sites, count,
      repl, -⟩ := readThroughCopy_eq_some applies
    have renamed := Instr.command?_withCommand q { d with args := d.args.set 1 (.reg b) }
  · rw [count, repl]
    rintro (copies | overflows | none)
    · exact absurd copies (not_sounds_of_op command rfl (by decide))
    · obtain ⟨form, known, -, named, read⟩ := folded_form first second written sites
      have same := inputs_folded (s := s) (b := b) (onward_addsOffsets places).toMovesData known
        named admitted.copy_inv.1.2 second read sites
      rw [Interpretation.sounds_of_command follows, Interpretation.execInstr_of_command _ command,
        same] at overflows
      exact Or.inl ((Interpretation.sounds_of_command renamed).2 overflows)
    · exact none.elim
  · have folded := (admitsRest q (List.mem_cons_self ..) d follows).folded admitted.copy_inv.2 stays
      first second written
    simpa [repl] using admits_of_command renamed folded

theorem foldOffset_upholds (reserves : Reg.zero ∈ v.reserved) (sees : v.unresolved = false)
    (command : p.command? = some c) (admitsRest : ∀ q ∈ rest, Admits q)
    (applies : foldOffset v next p c rest = some w) :
    WindowUpholds v ((p :: rest).take w.count) w.repl ((p :: rest).drop w.count) := by
  refine ⟨foldOffset_lightens command applies, fun places s =>
    agree_of_foldOffset (onward_addsOffsets places) reserves sees command applies s,
    fun places s => ?_, ?_⟩
  all_goals
    obtain ⟨a, n, dst, m, q, others, d, -, adds, rfl, follows, loads, isLoad, -, count, repl, -⟩ :=
      foldOffset_eq_some applies
    obtain ⟨load, isOp, has, -⟩ := readsMemory_form loads isLoad
    obtain ⟨safe, other⟩ := has_of_load has
  · rw [count]
    refine fun strikes => absurd strikes ?_
    rcases adds with isAdd | isAdd
    · exact not_strikes_of_two command isAdd (by decide) follows isOp safe
    · exact not_strikes_of_two command isAdd (by decide) follows isOp safe
  · rw [repl]
    have understood := (admitsRest q (List.mem_cons_self ..) d follows).understood_of_op isOp other
    exact List.forall_mem_singleton.2 (admits_of_command (Instr.command?_withCommand q _)
      (.understood (understood_moved understood loads isLoad _)))

/-- Every rule upholds its window. There are no calls, so no argument is computed for one. -/
theorem rule_upholds {rule : Rule} (reserves : Reg.zero ∈ v.reserved) (sees : v.unresolved = false)
    (member : rule ∈ rules) (admits : ∀ q ∈ p :: rest, Admits q) (command : p.command? = some c)
    (applies : rule v next p c rest = some w) :
    WindowUpholds v ((p :: rest).take w.count) w.repl ((p :: rest).drop w.count) := by
  have admitted := admits p (List.mem_cons_self ..) c command
  have admitsRest : ∀ q ∈ rest, Admits q := fun q later => admits q (List.mem_cons_of_mem _ later)
  simp only [rules, List.mem_cons, List.not_mem_nil, or_false] at member
  rcases member with rfl | rfl | rfl | rfl | rfl | rfl | rfl
  · exact dropSelfCopy_upholds admitted command applies
  · exact readThroughCopy_upholds admitted command admitsRest applies
  · obtain ⟨t, args, a, q, r, others, call, -, rfl, -, calls, isCall, -⟩ :=
      computeArgument_eq_some applies
    have stays := (admitsRest r (by simp) call calls).known.2.1
    rw [Command.leavesCode, Bool.or_eq_false_iff] at stays
    exact absurd (isCall.symm.trans stays.1) Bool.false_ne_true.symm
  · exact dropCopyBack_upholds admitted command applies
  · exact dropReload_upholds admitted command applies
  · exact simplifyShift_upholds admitted command applies
  · exact foldOffset_upholds reserves sees command admitsRest applies

/-- Redundancy elimination loses no overflow. -/
theorem redundancy_upholds (reserves : Reg.zero ∈ v.reserved) (sees : v.unresolved = false)
    (block : BlockCode) (admits : ∀ p ∈ block.code, Admits p) :
    Upholds v block.code (Redundancy.run v block).code := by
  refine Upholds.exhaust (fun block block' stepped admits => ?_) _ block admits
  obtain ⟨before, p, rest, c, rule, w, command, member, applies, isCode, -, edited⟩ :=
    step_eq_some stepped
  rw [isCode] at admits ⊢
  have inside : ∀ q ∈ p :: rest, Admits q := fun q later => by
    rw [← List.take_append_drop w.count (p :: rest)] at later
    exact admits q (List.append_assoc before .. ▸ List.mem_append_right _ later)
  have window := rule_upholds reserves sees member inside command applies
  have whole := Upholds.inside before admits window.lightens window.ends window.strikes
    window.admits
  exact whole.trans (.of_content whole.admits edited.symm)

end Redundancy

/-! ## Constant folding -/

namespace Machine

variable {places : String → Option Nat} {c : Command} {s t : State}

theorem Admitted.of_step_ok (admitted : Admitted c) (steps : (strict places).step c s = .ok t) :
    (onward places).exec c s = t ∧ ¬ Overflows ((onward places).inputs c s) := by
  cases (admitted.stepped : Stepped places c s) with
  | goes steps' calm => exact ⟨Except.ok.inj (steps'.symm.trans steps), calm⟩
  | stops trap stops => cases stops.symm.trans steps

/-- Commands that stop the program do not write to memory. -/
theorem Admitted.silent_of_stops {stop : Trap × State} (admitted : Admitted c)
    (stops : (strict places).step c s = .error stop) :
    ∃ form, c.form? = some form ∧ c.writesMemory = false := by
  cases admitted with
  | understood understood =>
    rw [step_strict understood] at stops
    contradiction
  | calculate op d x y member target =>
    exact ⟨_, form?_of_mem_trapping member target x y, silent_of_mem_trapping member _⟩
  | negate d x => exact ⟨_, rfl, rfl⟩

end Machine

namespace Folding

variable {k : Known} {v : View} {c c' : Command} {a b : List Instr}
variable {places : String → Option Nat} {s : Machine.State}

/-- What is exchanged does not stop the program. -/
theorem Exchange.proceeds {M : Type} {H : Hardware M} {s : MachineState Word M}
    (exchange : Exchange k c c') (holds : k.Holds H s) : ∃ t, H.step c s = .ok t := by
  have calculates : ∀ {op : Opcode} {d x : Reg} {y : Operand}, op ∈ reducible →
      ∃ t, H.step (.ofOpcode op [.reg d, .reg x, y]) s = .ok t := fun member =>
    let ⟨_, calculates⟩ := exists_binary? member _ _
    ⟨_, step_reducible member calculates⟩
  induction exchange with
  | result _ _ found =>
    obtain ⟨d, rest, -, steps⟩ := Known.step_of_result? found
    exact ⟨_, steps H s holds⟩
  | literal takes | swap takes => exact calculates (mem_of_takesLiteral takes)
  | simplify simpler => exact calculates (mem_of_simplified? simpler)
  | trans _ _ first => exact first

theorem exchangeable_admits : Exchangeable Admits := fun admits command command' exchange =>
  admits_of_command command' ((admits _ command).exchange exchange)

/-- Where the known values hold, refolded code goes through the same states, decides the same, and
loses no overflow. Behind a command that would stop the program, nothing is known of its result. -/
theorem Refolds.onward (refolds : Refolds k a b) (holds : k.Holds (strict places) s)
    (admits : ∀ p ∈ a, Admits p) :
    (onward places).execAll b s = (onward places).execAll a s ∧
      (∀ here, (onward places).leave here b s = (onward places).leave here a s) ∧
      (Strikes places a s → Strikes places b s) := by
  induction refolds generalizing s with
  | nil => exact ⟨rfl, fun _ => rfl, id⟩
  | @skip k p a b noCommand _ ih =>
    have idles : (Machine.onward places).execInstr p s = s := by
      rw [Interpretation.execInstr, noCommand]
      rfl
    rw [← idles] at holds
    obtain ⟨ends, leaves, strikes⟩ := ih holds (List.forall_mem_cons.1 admits).2
    refine ⟨ends, fun here => ?_, Or.imp_right strikes⟩
    rw [Interpretation.leave_cons, Interpretation.leave_cons, leaves]
  | @keep k k' p c a b command known isAfter _ ih =>
    obtain ⟨admitsHere, admitsLater⟩ := List.forall_mem_cons.1 admits
    have admitted := admitsHere c command
    have after : k'.Holds (strict places) ((Machine.onward places).execInstr p s) := by
      rw [Interpretation.execInstr_of_command _ command]
      cases (admitted.stepped : Stepped places c s) with
      | goes steps => exact holds.after known isAfter steps
      | stops trap stops =>
        obtain ⟨form, isForm, silent⟩ := admitted.silent_of_stops stops
        exact holds.after_stop known isAfter stops
          (fun _ => (Machine.onward places).regs_exec_of_not_mem_clobbers)
          ((Machine.onward places).mem_exec isForm silent)
    obtain ⟨ends, leaves, strikes⟩ := ih after admitsLater
    refine ⟨ends, fun here => ?_, Or.imp_right strikes⟩
    rw [Interpretation.leave_cons, Interpretation.leave_cons, leaves]
  | @exchange k k' p q c c' a b command command' exchange isAfter _ ih =>
    obtain ⟨admitsHere, admitsLater⟩ := List.forall_mem_cons.1 admits
    have admitted := admitsHere c command
    obtain ⟨t, steps⟩ := exchange.proceeds holds
    have steps' := (exchange.steps holds).trans steps
    obtain ⟨executes, calm⟩ := admitted.of_step_ok steps
    obtain ⟨executes', -⟩ := (admitted.exchange exchange).of_step_ok steps'
    have same : (Machine.onward places).execInstr q s = (Machine.onward places).execInstr p s := by
      rw [Interpretation.execInstr_of_command _ command,
        Interpretation.execInstr_of_command _ command', executes, executes']
    have after : k'.Holds (strict places) ((Machine.onward places).execInstr p s) := by
      rw [Interpretation.execInstr_of_command _ command, executes]
      exact holds.after exchange.isForeign_eq_false isAfter steps'
    obtain ⟨ends, leaves, strikes⟩ := ih after admitsLater
    have stays : p.isJump = false := (Instr.isJump_of_command command).trans exchange.stays.1
    have stays' : q.isJump = false := (Instr.isJump_of_command command').trans exchange.stays.2
    refine ⟨?_, fun here => ?_, ?_⟩
    · rw [Interpretation.execAll_cons, Interpretation.execAll_cons, same, ends]
    · rw [Interpretation.leave_cons, Interpretation.leave_cons, same, leaves,
        Interpretation.decideInstr_of_stays _ stays, Interpretation.decideInstr_of_stays _ stays']
    · rintro (here | later)
      · exact absurd ((Interpretation.sounds_of_command command).1 here) calm
      · refine Or.inr ?_
        rw [same]
        exact strikes later

/-- Constant folding loses no overflow. -/
theorem folding_upholds {block : BlockCode} (admits : ∀ p ∈ block.code, Admits p) :
    Upholds v block.code (Folding.run v block).block.code := by
  have refolds := (runFrom_refolds (v := v) (k := { fixed := v.reserved })
    (fun p member => (admits p member).isKnown) block.nextId).2.2
  have unknown : ∀ places s, Known.Holds (strict places) { fixed := v.reserved } s :=
    fun _ _ => ⟨by simp, by simp⟩
  refine ⟨fun places => ⟨fun s => ?_,
    fun here s => (refolds.onward (unknown places s) admits).2.1 here,
    fun _ => refolds.trades.live⟩, fun places s => (refolds.onward (unknown places s) admits).2.2,
    refolds.all exchangeable_admits admits⟩
  have same := (refolds.onward (unknown places s) admits).1
  exact same ▸ .refl ..

end Folding

end MipsFlow
