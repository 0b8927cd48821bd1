import MipsFlow.Proofs.FlatRuns
import MipsFlow.Proofs.JumpSimplification

/-!
# Jump optimization on the machine

The outcome of a run of an engine can be seen from its control flow, without the jumps:
`results_iff_shows`. So simplifying jumps does not change it (`Simplifies.results_iff`), and in
particular neither whether nor how a program ends (`Simplifies.ends_iff`). `Simplifies.fit` is for
what comes next: the machine runs the new program, too.
-/

namespace MipsFlow

/-- The state at the end of a run. -/
def Control.Ending.state {S : Type*} : Control.Ending S → S
  | .returned last | .indirect last => last.state
  | .unresolved _ s | .offEnd s => s

/-! ## Runs of an engine -/

namespace Machine

open Control (Point Observed Executed)

/-- Control flow in the program is that of the machine: it runs the jumps, which go to labels that
are declared once, and there are no calls. -/
structure Steerable (code : List Instr) : Prop where
  steered : ∀ p ∈ code, Steered p
  stays : ∀ p ∈ code, ∀ c, p.command? = some c → c.isCall = false
  targets : ∀ e ∈ exits code, ∀ label, e.target? = some label →
    (Graph.declared code).count label = 1

theorem Fit.steerable {code : List Instr} (fit : Fit code) : Steerable code :=
  ⟨fun p member => (fit.runs p member).steered,
    fun p member c command =>
      (Bool.or_eq_false_iff.1 (fit.runs p member c command).known.2.1).1,
    fit.targets⟩

namespace Engine

variable {E : Type} (K : Engine E)

/-- The commands of an engine, with every call out of sight. -/
def control : Control State := { Machine.control with exec := K.exec }

/-- What comes of a run of which this is observed. -/
def outcome? (o : Observed State) : Option (Except E State) :=
  ((o.executed.findSome? fun e => K.stop? e.command e.state).map .error).or
    (o.ending?.map fun ending => .ok ending.state)

end Engine

variable {E : Type} {K : Engine E} {places : String → Option Nat} {code rest : List Instr}
variable {s t : State} {c : Command} {r : Except E State}

/-- What an engine does at a command is what its control flow does. -/
theorem obey_of_steers (steers : K.Steers places) (noCall : c.isCall = false)
    (steered : c.isJump = true → Understood c) (id : Nat) (rest : List Instr) (s : State) :
    K.control.obey code id c ⟨rest, [], s⟩ =
      if c.isReturn then .stop (.returned ⟨id, c, s⟩)
      else match goesTo? c s with
        | some label => Control.jump code label ⟨id, c, s⟩ ⟨rest, [], s⟩
        | none => .go (some ⟨id, c, s⟩) ⟨rest, [], K.exec c s⟩ := by
  cases jumps : c.isJump with
  | false =>
    obtain ⟨noReturn, nowhere⟩ := goesTo?_of_plain (s := s) jumps
    simp only [Control.obey, noReturn, noCall, jumps, nowhere, Bool.false_eq_true, if_false]
    rfl
  | true =>
    have understood := steered jumps
    rw [steers.still s understood jumps]
    cases understood with
    | branch op x y label isBranch =>
      have stays : ¬ (Command.ofOpcode op [x, y, .sym label]).isReturn = true := by
        rcases isBranch with rfl | rfl <;> exact Bool.false_ne_true
      rw [if_neg stays]
      rcases isBranch with rfl | rfl
      · have passes : K.control.passes (.ofOpcode .beq [x, y, .sym label]) s =
            !decide (value s x = value s y) := rfl
        have goes : goesTo? (.ofOpcode .beq [x, y, .sym label]) s =
            if value s x = value s y then some label else none := rfl
        rw [Control.obey_of_target? rfl rfl, passes, goes]
        by_cases same : value s x = value s y <;> simp [same]
      · have passes : K.control.passes (.ofOpcode .bne [x, y, .sym label]) s =
            !decide (value s x ≠ value s y) := rfl
        have goes : goesTo? (.ofOpcode .bne [x, y, .sym label]) s =
            if value s x ≠ value s y then some label else none := rfl
        rw [Control.obey_of_target? rfl rfl, passes, goes]
        by_cases same : value s x = value s y <;> simp [same]
    | jump label => rfl
    | ret op isJump => rcases isJump with rfl | rfl <;> rfl
    | compute op d x y member =>
      exact absurd ((defs_compute member).2.symm.trans jumps) Bool.false_ne_true
    | _ => exact absurd jumps Bool.false_ne_true

theorem once_of_command (steerable : Steerable code) {p : Instr} {label : String}
    (member : p ∈ code) (command : p.command? = some c) (target : c.target? = some label) :
    (Graph.declared code).count label = 1 :=
  steerable.targets c.exit
    (mem_exits.2 ⟨p, member, c, command, Command.isJump_of_target? target, rfl⟩) label target

/-- Only jumps go to labels. -/
theorem isJump_of_goesTo? {label : String} (goes : goesTo? c s = some label) : c.isJump = true := by
  by_contra stays
  rw [(goesTo?_of_plain (Bool.eq_false_iff.2 stays)).2] at goes
  contradiction

/-- Jumps go to labels that the program declares. -/
theorem jump_of_goesTo? (steerable : Steerable code) {p : Instr} {label : String}
    (member : p ∈ code) (command : p.command? = some c) (stays : c.isReturn = false)
    (goes : goesTo? c s = some label) (e : Executed State) (q : Point State) :
    Control.jump code label e q = .go (some e) { q with ahead := behind label code } := by
  have jumps := isJump_of_goesTo? goes
  have understood := steerable.steered p member c command jumps
  have declared : label ∈ Graph.declared code := by
    rcases @goesTo?_cases (fun _ => none) c s 0 understood jumps stays with
      ⟨there, target, taken, -⟩ | ⟨-, notTaken, -⟩
    · cases goes.symm.trans taken
      have once := once_of_command steerable member command target
      exact List.count_pos_iff.1 (by omega)
    · rw [notTaken] at goes
      contradiction
  exact if_neg (Control.behind_eq_nil.not_left.2 declared)

/-- A command that is seen may stop the program; the others do not count. -/
theorem outcome?_after (e : Executed State) (o : Observed State) :
    K.outcome? (o.after (some e)).visible =
      ((e.visible?.bind fun e => K.stop? e.command e.state).map .error).or
        (K.outcome? o.visible) := by
  unfold Engine.outcome? Observed.visible
  simp only [Observed.after, Option.toList_some, List.singleton_append, List.filterMap_cons]
  cases seen : e.visible? with
  | none => rfl
  | some e =>
    rw [List.findSome?_cons, Option.bind_some]
    cases K.stop? e.command e.state <;> rfl

/-- What stops the program is seen. -/
theorem stop?_visible? (steers : K.Steers places) (noCall : c.isCall = false)
    (understood : c.isJump = true → Understood c) (id : Nat) :
    ((⟨id, c, s⟩ : Executed State).visible?.bind fun e => K.stop? e.command e.state) =
      K.stop? c s := by
  cases jumps : c.isJump with
  | false => simp [Executed.visible?, jumps]
  | true =>
    rw [steers.goesOn s (understood jumps) jumps]
    simp [Executed.visible?, jumps, noCall]

/-- The outcome of a run of an engine can be seen from its control flow. -/
theorem run_eq_control (steerable : Steerable code) (steers : K.Steers places) (fuel : Nat)
    {rest : List Instr} (suffix : rest <:+ code) (s : State) :
    K.run code fuel rest s = K.outcome? (K.control.run code fuel ⟨rest, [], s⟩).visible := by
  induction fuel generalizing rest s with
  | zero => rfl
  | succ fuel ih =>
    cases rest with
    | nil => rfl
    | cons p rest =>
      obtain ⟨member, later⟩ := Control.suffix_of_cons suffix
      cases command : p.command? with
      | none =>
        rw [Engine.run, command, Control.run_of_go (Control.move_of_no_command command)]
        exact ih later s
      | some c =>
        have noCall := steerable.stays p member c command
        have understood := steerable.steered p member c command
        have seen := @stop?_visible? _ _ _ s c steers noCall understood p.id
        have moves := (Control.move_of_command command).trans
          (@obey_of_steers _ _ _ code _ steers noCall understood p.id rest s)
        rw [Engine.run, command]
        cases returns : c.isReturn with
        | true =>
          rw [returns, if_pos rfl] at moves
          rw [Control.run_of_stop moves]
          simp only [returns, if_true]
          rfl
        | false =>
          simp only [returns, Bool.false_eq_true, if_false] at moves ⊢
          cases goes : goesTo? c s with
          | none =>
            rw [goes] at moves
            rw [Control.run_of_go moves, outcome?_after, seen, ← ih later]
            cases K.stop? c s <;> rfl
          | some label =>
            rw [goes] at moves
            rw [Control.run_of_go (moves.trans (jump_of_goesTo? steerable member command returns
              goes _ ⟨rest, [], s⟩)), outcome?_after, seen,
              steers.goesOn s (understood (isJump_of_goesTo? goes)) (isJump_of_goesTo? goes)]
            exact ih (List.dropWhile_suffix _) s

theorem results_iff_shows (steerable : Steerable code) (steers : K.Steers places) :
    K.Results code s r ↔ ∃ o : Observed State,
      K.control.Shows code (Control.start code s) o ∧ K.outcome? o = some r := by
  have sameRun := fun fuel => run_eq_control steerable steers fuel List.suffix_rfl s
  constructor
  · rintro ⟨fuel, results⟩
    exact ⟨_, ⟨fuel, rfl⟩, (sameRun fuel).symm.trans results⟩
  · rintro ⟨_, ⟨fuel, rfl⟩, outcome⟩
    exact ⟨fuel, (sameRun fuel).trans outcome⟩

end Machine

/-! ## The new program -/

namespace Jumps

open Machine

variable {code code' : List Instr}

/-- The command comes from that of the instruction: it is the same, or branches to where the
instruction jumps. -/
def Derived (p : Instr) (c' : Command) : Prop :=
  p.command? = some c' ∨ ∃ op x y target, (op = .beq ∨ op = .bne) ∧ Source x ∧ Source y ∧
    p.target? = some target ∧ c' = .ofOpcode op [x, y, .sym target]

/-- The machine runs the inverse of a branch that it runs. -/
theorem Inverts.of_understood {target : String} {c c' : Command} (inverts : Inverts target c c')
    (understood : Understood c) : ∃ op x y, (op = .beq ∨ op = .bne) ∧ Source x ∧ Source y ∧
      c' = .ofOpcode op [x, y, .sym target] := by
  obtain ⟨op, op', isOp, inverse, rfl⟩ := inverts
  cases understood with
  | branch _ x y label isBranch left right =>
    cases isOp
    rcases isBranch with rfl | rfl <;> cases inverse
    · exact ⟨.bne, x, y, Or.inr rfl, left, right, rfl⟩
    · exact ⟨.beq, x, y, Or.inl rfl, left, right, rfl⟩
  | compute _ _ _ _ member =>
    cases isOp
    simp only [operations, List.mem_cons, List.not_mem_nil, or_false] at member
    rcases member with rfl | rfl | rfl | rfl | rfl | rfl | rfl | rfl <;> contradiction
  | ret _ isJump =>
    cases isOp
    rcases isJump with rfl | rfl <;> contradiction
  | _ =>
    cases isOp
    contradiction

theorem Inverts.isJump {target : String} {c c' : Command} (inverts : Inverts target c c') :
    c.isJump = true := by
  obtain ⟨op, op', isOp, inverse, -⟩ := inverts
  rw [Command.isJump, Command.has_of_op? isOp, Opcode.has, (traits_of_inverse? inverse).1]
  rfl

/-- Every command of the new program comes from one of the old. -/
theorem Simplifies.derived (simplifies : Simplifies code code') (steered : ∀ p ∈ code, Steered p)
    {p' : Instr} {c' : Command} (member : p' ∈ code') (command' : p'.command? = some c') :
    ∃ p ∈ code, Derived p c' := by
  induction simplifies with
  | nil => simp at member
  | @keep p _ rest _ same _ ih =>
    rcases List.mem_cons.1 member with rfl | later
    · have sameCommand := Interpretation.command?_congr (Instr.content_of_bare same)
      exact ⟨p, List.mem_cons_self .., Or.inl (sameCommand ▸ command')⟩
    · obtain ⟨q, inside, derived⟩ := ih (List.forall_mem_cons.1 steered).2 later
      exact ⟨q, List.mem_cons_of_mem _ inside, derived⟩
  | @invert p q _ c d c'' label target after _ command jump isNew inverts _ _ isTarget _ _ ih =>
    obtain ⟨steeredHere, steeredNext⟩ := List.forall_mem_cons.1 steered
    rcases List.mem_cons.1 member with rfl | later
    · obtain ⟨op, x, y, isBranch, left, right, rfl⟩ := inverts.of_understood
        (steeredHere c command inverts.isJump)
      refine ⟨q, by simp, Or.inr ⟨op, x, y, target, isBranch, left, right, ?_, ?_⟩⟩
      · rw [Instr.target?, jump]
        exact isTarget
      · exact Option.some.inj (command'.symm.trans isNew)
    · obtain ⟨r, inside, derived⟩ := ih (List.forall_mem_cons.1 steeredNext).2 later
      exact ⟨r, List.mem_cons_of_mem _ (List.mem_cons_of_mem _ inside), derived⟩
  | skip _ _ _ _ _ ih =>
    obtain ⟨q, inside, derived⟩ := ih (List.forall_mem_cons.1 steered).2 member
    exact ⟨q, List.mem_cons_of_mem _ inside, derived⟩

theorem lastReturns_cons {p : Instr} {rest : List Instr} :
    LastReturns (p :: rest) ↔ LastReturns rest ∨
      rest.filterMap Instr.command? = [] ∧ ∃ c, p.command? = some c ∧ c.isReturn = true := by
  unfold LastReturns
  rw [List.filterMap_cons]
  cases command : p.command? with
  | none => simp
  | some c =>
    cases rest.filterMap Instr.command? with
    | nil => simp
    | cons d others => simp [List.getLast?_cons_cons]

theorem Simplifies.no_commands (simplifies : Simplifies code code')
    (empty : code.filterMap Instr.command? = []) : code'.filterMap Instr.command? = [] := by
  induction simplifies with
  | nil => rfl
  | keep same _ ih =>
    rw [List.filterMap_cons] at empty ⊢
    rw [Interpretation.command?_congr (Instr.content_of_bare same)]
    split at empty
    · exact ih empty
    · contradiction
  | invert command =>
    rw [List.filterMap_cons_some command] at empty
    contradiction
  | skip command =>
    rw [List.filterMap_cons_some command] at empty
    contradiction

/-- A jump to a label does not return, so the last command stays. -/
theorem Simplifies.lastReturns (simplifies : Simplifies code code') (returns : LastReturns code) :
    LastReturns code' := by
  induction simplifies with
  | nil => exact returns
  | keep same simplifies ih =>
    rw [lastReturns_cons] at returns ⊢
    rw [Interpretation.command?_congr (Instr.content_of_bare same)]
    exact returns.imp ih (And.imp_left simplifies.no_commands)
  | invert command jump _ _ _ _ isTarget _ _ ih =>
    rw [lastReturns_cons, lastReturns_cons, command, jump] at returns
    rw [lastReturns_cons]
    rcases returns with (later | ⟨-, d, isCommand, isReturn⟩) | ⟨none, -⟩
    · exact Or.inl (ih later)
    · cases isCommand
      rw [Command.isReturn_of_target? isTarget] at isReturn
      contradiction
    · rw [List.filterMap_cons_some jump] at none
      contradiction
  | skip command _ target _ _ ih =>
    rw [lastReturns_cons, command] at returns
    rcases returns with later | ⟨-, d, isCommand, isReturn⟩
    · exact ih later
    · cases isCommand
      rw [Command.isReturn_of_target? target] at isReturn
      contradiction

/-- What holds of the old commands and of branches of the machine holds of the new commands. -/
theorem Simplifies.forall_commands {P : Command → Prop} (simplifies : Simplifies code code')
    (steered : ∀ p ∈ code, Steered p) (of_understood : ∀ {c}, Understood c → P c)
    (holds : ∀ p ∈ code, ∀ c, p.command? = some c → P c) :
    ∀ p' ∈ code', ∀ c', p'.command? = some c' → P c' := by
  intro p' member c' command'
  obtain ⟨p, inside, command | ⟨op, x, y, there, isBranch, left, right, -, rfl⟩⟩ :=
    simplifies.derived steered member command'
  · exact holds p inside c' command
  · exact of_understood (.branch op x y there isBranch left right)

/-- Control flow in the new program is that of the machine, too. -/
theorem Simplifies.steerable (simplifies : Simplifies code code') (steerable : Steerable code) :
    Steerable code' := by
  refine ⟨simplifies.forall_commands (P := fun c => c.isJump = true → Understood c)
      steerable.steered (fun understood _ => understood) steerable.steered,
    simplifies.forall_commands (P := fun c => c.isCall = false) steerable.steered
      (fun understood => (Bool.or_eq_false_iff.1 understood.known.2.1).1) steerable.stays,
    fun e exit label target => ?_⟩
  obtain ⟨p', member, c', command, -, rfl⟩ := mem_exits.1 exit
  rw [simplifies.declared_eq]
  obtain ⟨p, inside, isCommand | ⟨op, x, y, there, isBranch, -, -, goes, rfl⟩⟩ :=
    simplifies.derived steerable.steered member command
  · exact once_of_command steerable inside isCommand target
  · have same : there = label := by
      rcases isBranch with rfl | rfl <;> exact Option.some.inj target
    obtain ⟨d, jump, isTarget⟩ := Option.bind_eq_some_iff.1 goes
    exact once_of_command steerable inside jump (same ▸ isTarget)

/-- The machine runs the new program as well. -/
theorem Simplifies.fit (simplifies : Simplifies code code') (fit : Fit code) : Fit code' :=
  ⟨simplifies.forall_commands fit.steerable.steered id fit.runs,
    (simplifies.steerable fit.steerable).targets, simplifies.lastReturns fit.returns⟩

/-- Simplifying jumps does not change what comes of a program. -/
theorem Simplifies.results_iff {E : Type} {K : Engine E} {places : String → Option Nat}
    (simplifies : Simplifies code code') (steerable : Steerable code) (steers : K.Steers places)
    {s : Machine.State} {r : Except E Machine.State} :
    K.Results code s r ↔ K.Results code' s r := by
  have unambiguous : Unambiguous code := fun p member c command label target =>
    (once_of_command steerable member command target).le
  rw [results_iff_shows steerable steers, results_iff_shows (simplifies.steerable steerable) steers]
  exact exists_congr fun o => and_congr_left'
    (simplifies.shows_iff (C := K.control) control_opposed unambiguous s o)

/-- Simplifying jumps does not change how a program ends. -/
theorem Simplifies.ends_iff (fit : Fit code) (simplifies : Simplifies code code')
    {s t : Machine.State} : Ends code s t ↔ Ends code' s t := by
  rw [@ends_iff_results (fun _ => none) _ _ _ fit.runs,
    @ends_iff_results (fun _ => none) _ _ _ (simplifies.fit fit).runs]
  exact simplifies.results_iff fit.steerable (engine_steers _)

end Jumps

end MipsFlow
