import MipsFlow.Optimizer.Workspace
import MipsFlow.Proofs.Control
import MipsFlow.Proofs.DeadCodePass
import MipsFlow.Proofs.FlatRuns

/-!
# Dead code elimination is invisible

A run of a flat program is followed together with the run of the program that dead code elimination
leaves (`Level`): both are in the same block, what is ahead of them there differs in commands that
are not needed, and their states agree on what the new code needs. A jump leads both to the entry of
the same block, because the edges of the graph cover what jumps do, and there the states agree on
what the facts say is live, so on what the new code of that block needs.

* `dead_code_elimination_invisible`: the two runs decide their branches alike, write memory alike
  and in the same order, and end alike; at a return they agree on the registers that are seen from
  outside.
-/

namespace MipsFlow

variable {V M : Type}

/-! ## What is seen of a run -/

namespace Interpretation

/-- A program under an interpretation of its commands. Branches are decided by their inputs, and
calls run code that is not in sight. -/
def control (I : Interpretation V M) (holds : Inputs V M → Bool) : Control (MachineState V M) where
  exec := I.exec
  taken c s := holds (I.inputs c s)
  enters _ _ := false

/-- What a command does besides writing registers. -/
inductive Effect (V M : Type) where
  | branch (id : Nat) (taken : Bool)
  | write (id : Nat) (inputs : Inputs V M)

/-- The effect of a command, if it decides or may write memory. -/
def effect? (I : Interpretation V M) (holds : Inputs V M → Bool)
    (e : Control.Executed (MachineState V M)) : Option (Effect V M) :=
  if e.command.isBranch then some (.branch e.id (holds (I.inputs e.command e.state)))
  else if e.command.writesMemory then some (.write e.id (I.inputs e.command e.state))
  else none

/-- The two runs end in the same way with the same memory. At a return the registers of the list
have the same values. -/
inductive EndAlike (I : Interpretation V M) (kept : List Reg) :
    Control.Ending (MachineState V M) → Control.Ending (MachineState V M) → Prop
  | returned (id : Nat) (c : Command) {s t : MachineState V M} : s.mem = t.mem →
    (∀ r ∈ kept, I.read s r = I.read t r) →
    EndAlike I kept (.returned ⟨id, c, s⟩) (.returned ⟨id, c, t⟩)
  | unresolved (label : String) {s t : MachineState V M} : s.mem = t.mem →
    EndAlike I kept (.unresolved label s) (.unresolved label t)
  | indirect (id : Nat) (c : Command) {s t : MachineState V M} : s.mem = t.mem →
    EndAlike I kept (.indirect ⟨id, c, s⟩) (.indirect ⟨id, c, t⟩)
  | offEnd {s t : MachineState V M} : s.mem = t.mem → EndAlike I kept (.offEnd s) (.offEnd t)

end Interpretation

/-! ## Edges -/

namespace Graph

variable {code : List Instr} {id : Nat} {b : Block} {i : Instr} {c : Command} {label : String}

theorem terminator?_of_last (last : [i] <:+ b.code) :
    b.terminator? = if i.isJump then some i else none := by
  obtain ⟨front, isCode⟩ := last
  unfold Block.terminator?
  rw [← isCode, List.getLast?_concat]
  rfl

theorem terminates_of_last (last : [i] <:+ b.code) (command : i.command? = some c)
    (jumps : c.isJump = true) : b.terminator?.bind Instr.command? = some c := by
  have isJump : i.isJump = true := (Instr.isJump_of_command command).trans jumps
  rw [terminator?_of_last last, if_pos isJump]
  exact command

/-- Behind the last instruction of a block there is an edge to the next block, unless the
instruction returns or jumps in any case. -/
theorem falls_build (here : (build code).block? id = some b) (last : [i] <:+ b.code)
    (falls : ∀ c, i.command? = some c → c.isJump = true →
      c.isReturn = false ∧ (c.isBranch = true ∨ c.isCall = true))
    (inside : id + 1 < (build code).size) : id + 1 ∈ b.succ := by
  cases jumps : i.isJump with
  | false =>
    have noEnd : b.terminator?.bind Instr.command? = none := by
      rw [terminator?_of_last last, jumps]
      rfl
    rw [succ_of_falls here noEnd, if_pos inside]
    exact List.mem_singleton_self _
  | true =>
    obtain ⟨c, command, isJump⟩ := (Option.any_eq_true _ _).1 jumps
    obtain ⟨stays, goesOn⟩ := falls c command isJump
    exact next_mem_succ here (terminates_of_last last command isJump) stays
      (Bool.or_eq_true_iff.2 goesOn) inside

/-- A jump at the end of a block to a label that is declared has an edge to the block that the
label leads. -/
theorem jumps_build (here : (build code).block? id = some b) (last : [i] <:+ b.code)
    (command : i.command? = some c) (target : c.target? = some label)
    (declares : label ∈ declared code) :
    ∃ place ∈ b.succ, (build code).StartsAt label place := by
  have terminates := terminates_of_last last command (Command.isJump_of_target? target)
  obtain ⟨place, isPlace, starts⟩ :=
    startsAt_build (mem_pinnedLabels (exit_mem_of_terminates here terminates) target) declares
  exact ⟨place, mem_succ_of_target here terminates target (Command.isReturn_of_target? target)
    isPlace, starts⟩

/-- A block that ends with a return has no edges. -/
theorem returns_build (here : (build code).block? id = some b) (last : [i] <:+ b.code)
    (command : i.command? = some c) (returns : c.isReturn = true) : b.succ = [] := by
  have terminates := terminates_of_last last command (Command.isJump_of_isReturn returns)
  exact succ_of_returns here terminates returns

end Graph

namespace DeadCode

open Control (Point Move)

/-- The second graph differs from the first in that its blocks are clean. -/
structure Cleaned (annotated : Bool) (f : Facts) (g g' : Graph) : Prop where
  shape : g.SameShape g'
  cleans : ∀ {id : Nat} {b b' : Block}, g.block? id = some b → g'.block? id = some b' →
    Cleans (f.view annotated b) b.code b'.code

/-- The two runs have come to the same place of a block, with states that agree on what is needed
there, or both are at the end of the program. -/
inductive Level (I : Interpretation V M) (annotated : Bool) (f : Facts) (g g' : Graph) :
    Point (MachineState V M) → Point (MachineState V M) → Prop
  | within {id : Nat} {b : Block} {x x' : List Instr} {s t : MachineState V M} :
    g.block? id = some b → x ≠ [] → x <:+ b.code → Cleans (f.view annotated b) x x' →
    AgreeOn I (liveBefore (f.view annotated b) x') s t →
    Level I annotated f g g' ⟨x ++ g.codeFrom (id + 1), [], s⟩ ⟨x' ++ g'.codeFrom (id + 1), [], t⟩
  | ended {s t : MachineState V M} : s.mem = t.mem →
    Level I annotated f g g' ⟨[], [], s⟩ ⟨[], [], t⟩

/-- What the comparison of the two programs rests on. -/
structure Grounds (annotated : Bool) (f : Facts) (reserved : List Reg) (code : List Instr)
    (g' : Graph) : Prop where
  sound : f.LiveSound (Graph.build code) reserved
  cleaned : Cleaned annotated f (Graph.build code) g'
  known : ∀ p ∈ code, p.isKnown = true

section Runs

variable {I : Interpretation V M} {holds : Inputs V M → Bool} {annotated : Bool} {f : Facts}
variable {code : List Instr} {g' : Graph} {reserved : List Reg} {id : Nat} {b : Block}
variable {s t : MachineState V M} {i i' : Instr} {x x' : List Instr} {c : Command}

/-- Two runs that come to the same block are level, if their states agree on what is live there. -/
theorem Level.enter (grounds : Grounds annotated f reserved code g')
    (inside : id < (Graph.build code).size) (agree : AgreeOn I (f.live.entryOf id) s t) :
    Level I annotated f (Graph.build code) g' ⟨(Graph.build code).codeFrom id, [], s⟩
      ⟨g'.codeFrom id, [], t⟩ := by
  obtain ⟨b, here⟩ := Graph.block?_of_lt_size inside
  obtain ⟨code', there⟩ := grounds.cleaned.shape.block? here
  obtain ⟨nonempty, last⟩ := Graph.jumpsLast_build here
  have cleans := grounds.cleaned.cleans here there
  rw [Graph.codeFrom_of_block? here, Graph.codeFrom_of_block? there]
  refine .within here nonempty List.suffix_rfl cleans (agree.mono fun r member => ?_)
  have live := cleans.live (fun _ => last) member
  refine grounds.sound.block here ?_
  rwa [← (Graph.build_regular code).place here]

/-- An edge leads two runs that agree behind a block to the entry of another one. -/
theorem Level.follow (grounds : Grounds annotated f reserved code g')
    (here : (Graph.build code).block? id = some b)
    (agree : AgreeOn I (liveBefore (f.view annotated b) []) s t) {next : Nat}
    (edge : next ∈ b.succ) :
    Level I annotated f (Graph.build code) g' ⟨(Graph.build code).codeFrom next, [], s⟩
      ⟨g'.codeFrom next, [], t⟩ := by
  have regular := Graph.build_regular code
  obtain ⟨after, isAfter, -⟩ := regular.succ_pred here edge
  refine .enter grounds (Graph.lt_size_of_block? isAfter) (agree.mono fun r member => ?_)
  have live := grounds.sound.edge here edge member
  rwa [← regular.place here] at live

/-- Behind an instruction, two runs go on in the block, or come to the next one. -/
theorem Level.proceed (grounds : Grounds annotated f reserved code g')
    (here : (Graph.build code).block? id = some b) (suffix : i :: x <:+ b.code)
    (falls : x = [] → ∀ c, i.command? = some c → c.isJump = true →
      c.isReturn = false ∧ (c.isBranch = true ∨ c.isCall = true))
    (cleans : Cleans (f.view annotated b) x x')
    (agree : AgreeOn I (liveBefore (f.view annotated b) x') s t) :
    Level I annotated f (Graph.build code) g' ⟨x ++ (Graph.build code).codeFrom (id + 1), [], s⟩
      ⟨x' ++ g'.codeFrom (id + 1), [], t⟩ := by
  cases x with
  | cons j rest =>
    exact .within here (by simp) (Control.suffix_of_cons suffix).2 cleans agree
  | nil =>
    rw [cleans.eq_nil] at agree ⊢
    rcases Nat.lt_or_ge (id + 1) (Graph.build code).size with inside | outside
    · exact .follow grounds here agree (Graph.falls_build here suffix (falls rfl) inside)
    · have outside' : g'.size ≤ id + 1 := by rwa [grounds.cleaned.shape.size_eq]
      rw [Graph.codeFrom_of_size_le outside, Graph.codeFrom_of_size_le outside']
      exact .ended agree.1

/-- A jump goes to the same block in both programs. -/
theorem jump_alike (grounds : Grounds annotated f reserved code g')
    (here : (Graph.build code).block? id = some b) (last : [i] <:+ b.code)
    (command : i.command? = some c) {label : String} (target : c.target? = some label)
    (agree : AgreeOn I (liveBefore (f.view annotated b) []) s t)
    {watch : Control.Executed (MachineState V M) → Option (Interpretation.Effect V M)}
    {e e' : Control.Executed (MachineState V M)} (same : watch e' = watch e)
    (kept : List Reg) (rest rest' : List Instr) :
    Move.Alike watch (I.EndAlike kept) (Level I annotated f (Graph.build code) g')
      (Control.jump code label e ⟨rest, [], s⟩)
      (Control.jump g'.flatten label e' ⟨rest', [], t⟩) := by
  have reworked : ∀ {id : Nat} {b b' : Block}, (Graph.build code).block? id = some b →
      g'.block? id = some b' → Reworked b.code b'.code := fun here there =>
    (grounds.cleaned.cleans here there).reworked
  have declared : Graph.declared g'.flatten = Graph.declared code := by
    have flat := (grounds.cleaned.shape.flatten_reworked reworked).labels_eq
    rwa [Graph.flatten_build] at flat
  unfold Control.jump
  by_cases missing : Machine.behind label code = []
  · have missing' : Machine.behind label g'.flatten = [] := by
      rw [Control.behind_eq_nil] at missing ⊢
      rwa [declared]
    rw [if_pos missing, if_pos missing']
    exact .stop (.unresolved label agree.1)
  · have declares : label ∈ Graph.declared code := by
      by_contra undeclared
      exact missing (Control.behind_eq_nil.2 undeclared)
    have found' : Machine.behind label g'.flatten ≠ [] := by
      rw [Ne, Control.behind_eq_nil, declared]
      exact not_not.2 declares
    obtain ⟨place, edge, starts⟩ := Graph.jumps_build here last command target declares
    have goes := Graph.behind_flatten starts
    rw [Graph.flatten_build] at goes
    have goes' := Graph.behind_flatten (starts.reworked grounds.cleaned.shape reworked)
    rw [if_neg missing, if_neg found', goes, goes']
    exact .go same (.follow grounds here agree edge)

theorem effect?_congr {c : Command} {s t : MachineState V M} (same : I.inputs c s = I.inputs c t)
    (id : Nat) : I.effect? holds ⟨id, c, t⟩ = I.effect? holds ⟨id, c, s⟩ := by
  simp only [Interpretation.effect?, same]

/-- Calls out of sight only change the state. -/
theorem call_eq (code : List Instr) (c : Command) (p : Point (MachineState V M)) :
    (I.control holds).call code c p = { p with state := I.exec c p.state } := by
  unfold Control.call
  split
  · rw [if_neg]
    · rfl
    · simp [Interpretation.control]
  · rfl

/-- A jump that calls nothing leaves what is live as it is. -/
theorem agree_of_isJump (command : i.command? = some c) (jumps : c.isJump = true)
    (noCall : c.isCall = false) {v : View} (agree : AgreeOn I (liveBefore v [i]) s t) :
    AgreeOn I (liveBefore v []) s t := by
  refine agree.mono fun r member => ?_
  unfold liveBefore at member ⊢
  rw [Liveness.mem_liveIn_cons, defs_of_command command, Command.defs_of_isJump jumps noCall]
  exact Or.inr ⟨member, Or.inr List.not_mem_nil⟩

/-- Behind a jump there is nothing in its block. -/
theorem eq_nil_of_isJump (here : (Graph.build code).block? id = some b) (suffix : i :: x <:+ b.code)
    (command : i.command? = some c) (jumps : c.isJump = true) : x = [] := by
  have isJump : i.isJump = true := (Instr.isJump_of_command command).trans jumps
  obtain ⟨front, isCode⟩ := suffix
  have last := (Graph.jumpsLast_build here).2
  rw [← isCode] at last
  exact last.eq_nil isJump

/-- A command that stays leaves states that agree on what is needed behind it. -/
theorem agree_exec (grounds : Grounds annotated f reserved code g')
    (here : (Graph.build code).block? id = some b) (suffix : i :: x <:+ b.code)
    (command : i.command? = some c) (command' : i'.command? = some c)
    (agree : AgreeOn I (liveBefore (f.view annotated b) (i' :: x')) s t) :
    AgreeOn I (liveBefore (f.view annotated b) x') (I.exec c s) (I.exec c t) := by
  have inside : i ∈ code := Graph.mem_of_mem_build here (Control.suffix_of_cons suffix).1
  have known : i'.isKnown = true := by
    have knownOld := grounds.known i inside
    rw [Instr.isKnown, command] at knownOld
    rwa [Instr.isKnown, command']
  have after := (Liveness.agree_execInstr known agree).1
  rwa [Interpretation.execInstr, Interpretation.execInstr, command'] at after

/-- A return ends both runs, with the same values in what is seen from outside. -/
theorem return_alike (grounds : Grounds annotated f reserved code g')
    (here : (Graph.build code).block? id = some b) (last : [i] <:+ b.code)
    (command : i.command? = some c) (returns : c.isReturn = true) (place : Nat)
    (agree : AgreeOn I (liveBefore (f.view annotated b) []) s t) :
    I.EndAlike (reserved ++ Reg.results ++ Reg.calleeSaved) (.returned ⟨place, c, s⟩)
      (.returned ⟨place, c, t⟩) := by
  refine .returned place c agree.1 fun r member => agree.2 r ?_
  have ends := Graph.returns_build here last command returns
  have live := grounds.sound.ends here ends (FactSet.mem_ofList.2 member)
  rwa [← (Graph.build_regular code).place here] at live

/-- A command that stays does the same in both programs. -/
theorem obey_alike (grounds : Grounds annotated f reserved code g')
    (here : (Graph.build code).block? id = some b) (suffix : i :: x <:+ b.code)
    (command : i.command? = some c) (command' : i'.command? = some c)
    (cleans : Cleans (f.view annotated b) x x')
    (agree : AgreeOn I (liveBefore (f.view annotated b) (i' :: x')) s t) (place : Nat) :
    Move.Alike (I.effect? holds) (I.EndAlike (reserved ++ Reg.results ++ Reg.calleeSaved))
      (Level I annotated f (Graph.build code) g')
      ((I.control holds).obey code place c ⟨x ++ (Graph.build code).codeFrom (id + 1), [], s⟩)
      ((I.control holds).obey g'.flatten place c ⟨x' ++ g'.codeFrom (id + 1), [], t⟩) := by
  have inputs : I.inputs c s = I.inputs c t := Liveness.inputs_of_agree command' agree
  have seen : I.effect? holds ⟨place, c, t⟩ = I.effect? holds ⟨place, c, s⟩ :=
    effect?_congr inputs place
  have executed := agree_exec grounds here suffix command command' agree
  -- behind a jump that calls nothing the states are those before it
  have stays : c.isJump = true → c.isCall = false → x = [] ∧ x' = [] ∧
      AgreeOn I (liveBefore (f.view annotated b) []) s t := by
    intro jumps noCall
    have none := eq_nil_of_isJump here suffix command jumps
    subst none
    have none' := cleans.eq_nil
    subst none'
    exact ⟨rfl, rfl, agree_of_isJump command' jumps noCall agree⟩
  unfold Control.obey
  split
  · next returns =>
    obtain ⟨rfl, rfl, agreeStill⟩ :=
      stays (Command.isJump_of_isReturn returns) (Command.isCall_of_isReturn returns)
    exact .stop (return_alike grounds here suffix command returns place agreeStill)
  · next noReturn =>
    split
    · next calls =>
      rw [call_eq, call_eq]
      refine .go seen (.proceed grounds here suffix (fun _ d isCommand _ => ?_) cleans executed)
      cases command.symm.trans isCommand
      exact ⟨Bool.eq_false_iff.2 noReturn, Or.inr calls⟩
    · next noCall =>
      split
      · next jumps =>
        obtain ⟨rfl, rfl, agreeStill⟩ := stays jumps (Bool.eq_false_iff.2 noCall)
        have passes : (I.control holds).passes c t = (I.control holds).passes c s := by
          simp only [Control.passes, Interpretation.control, inputs]
        simp only [passes]
        split
        · next goesOn =>
          have falls : c.isBranch = true := (Bool.and_eq_true_iff.1 goesOn).1
          refine .go seen
            (.proceed grounds here suffix (fun _ d isCommand _ => ?_) cleans agreeStill)
          cases command.symm.trans isCommand
          exact ⟨Bool.eq_false_iff.2 noReturn, Or.inl falls⟩
        · split
          · next label target =>
            exact jump_alike grounds here suffix command target agreeStill seen _ _ _
          · exact .stop (.indirect place c agreeStill.1)
      · next staysHere =>
        refine .go seen
          (.proceed grounds here suffix (fun _ d isCommand jumps => ?_) cleans executed)
        cases command.symm.trans isCommand
        exact absurd jumps staysHere

/-- An instruction that stays does the same in both programs. -/
theorem keep_alike (grounds : Grounds annotated f reserved code g')
    (here : (Graph.build code).block? id = some b) (suffix : i :: x <:+ b.code)
    (same : i'.bare = i.bare) (cleans : Cleans (f.view annotated b) x x')
    (agree : AgreeOn I (liveBefore (f.view annotated b) (i' :: x')) s t) :
    Move.Alike (I.effect? holds) (I.EndAlike (reserved ++ Reg.results ++ Reg.calleeSaved))
      (Level I annotated f (Graph.build code) g')
      ((I.control holds).move code ⟨i :: (x ++ (Graph.build code).codeFrom (id + 1)), [], s⟩)
      ((I.control holds).move g'.flatten ⟨i' :: (x' ++ g'.codeFrom (id + 1)), [], t⟩) := by
  have sameCommand := Interpretation.command?_congr (Instr.content_of_bare same)
  cases command : i.command? with
  | none =>
    rw [Control.move_of_no_command command, Control.move_of_no_command (sameCommand.trans command)]
    refine .go rfl (.proceed grounds here suffix (fun _ c isCommand => ?_) cleans ?_)
    · rw [command] at isCommand
      contradiction
    · refine agree.mono fun r member => Liveness.mem_liveIn_cons.2 (Or.inr ⟨member, Or.inr ?_⟩)
      simp [Instr.defs, sameCommand.trans command]
  | some c =>
    have command' := sameCommand.trans command
    rw [Control.move_of_command command, Control.move_of_command command', Instr.id_of_bare same]
    exact obey_alike grounds here suffix command command' cleans agree i.id

/-- The step of a command that goes is not seen. -/
theorem move_of_isPure (command : i.command? = some c) (pure : c.isPure = true)
    (code ahead : List Instr) (s : MachineState V M) :
    (I.control holds).move code ⟨i :: ahead, [], s⟩ =
        .go (some ⟨i.id, c, s⟩) ⟨ahead, [], I.execInstr i s⟩ ∧
      I.effect? holds ⟨i.id, c, s⟩ = none := by
  obtain ⟨-, -, silent, -⟩ := Command.form_of_isPure pure
  have stays := Command.isJump_of_isPure pure
  have noBranch : c.isBranch = false := by
    rw [Bool.eq_false_iff]
    intro branches
    rw [(Command.isJump_of_isBranch branches).1] at stays
    contradiction
  have noReturn : c.isReturn = false := by
    rw [Bool.eq_false_iff]
    intro returns
    rw [Command.isJump_of_isReturn returns] at stays
    contradiction
  have noCall : c.isCall = false :=
    (Bool.or_eq_false_iff.1 (Bool.or_eq_false_iff.1 silent).2).1
  refine ⟨?_, ?_⟩
  · rw [Control.move_of_command command]
    simp only [Control.obey, noReturn, noCall, stays, Bool.false_eq_true, if_false,
      Interpretation.execInstr, command, Option.elim_some]
    rfl
  · simp only [Interpretation.effect?, noBranch, silent, Bool.false_eq_true, if_false]

/-- The two programs go on together. -/
theorem Level.together (grounds : Grounds annotated f reserved code g')
    (p p' : Point (MachineState V M)) (level : Level I annotated f (Graph.build code) g' p p') :
    (I.control holds).Together (I.effect? holds)
      (I.EndAlike (reserved ++ Reg.results ++ Reg.calleeSaved))
      (Level I annotated f (Graph.build code) g') code g'.flatten p p' := by
  cases level with
  | ended memory => exact .both (.stop (.offEnd memory))
  | within here nonempty suffix cleans agree =>
    cases cleans with
    | nil => contradiction
    | keep same cleans => exact .both (keep_alike grounds here suffix same cleans agree)
    | @drop i c x x' command pure unwritten cleans =>
      obtain ⟨moves, hidden⟩ := @move_of_isPure V M I holds i c command pure code
        (x ++ (Graph.build code).codeFrom _) _
      refine .first moves hidden (Nat.lt_succ_self _) ?_
      refine .proceed grounds here suffix (fun _ d isCommand jumps => ?_) cleans
        (agree_of_isPure command pure unwritten agree)
      cases command.symm.trans isCommand
      rw [Command.isJump_of_isPure pure] at jumps
      contradiction

end Runs

/-- Cleaning one block. -/
theorem Cleaned.setCode {annotated : Bool} {f : Facts} {g : Graph} {id : Nat} {b : Block}
    {code : List Instr} (here : g.block? id = some b)
    (cleans : Cleans (f.view annotated b) b.code code) :
    Cleaned annotated f g (g.setCode id code) :=
  ⟨.setCode code, Graph.setCode_related
    (R := fun _ c c' => Cleans (f.view annotated c) c.code c'.code) here cleans
    fun _ _ => .of_bare rfl⟩

/-- At the start the two runs are level. -/
theorem Level.start {I : Interpretation V M} {annotated : Bool} {f : Facts} {reserved : List Reg}
    {code : List Instr} {g' : Graph} (grounds : Grounds annotated f reserved code g')
    (s : MachineState V M) :
    Level I annotated f (Graph.build code) g' (Control.start code s)
      (Control.start g'.flatten s) := by
  have whole : (Graph.build code).codeFrom 0 = code := Graph.flatten_build code
  have whole' : g'.codeFrom 0 = g'.flatten := rfl
  unfold Control.start
  rw [← whole', ← congrArg (Point.mk · [] s) whole]
  rcases Nat.eq_zero_or_pos (Graph.build code).size with empty | inside
  · have empty' : g'.size = 0 := by rwa [grounds.cleaned.shape.size_eq]
    rw [Graph.codeFrom_of_size_le (by omega), Graph.codeFrom_of_size_le (by omega)]
    exact .ended rfl
  · exact .enter grounds inside (.refl _ s)

/-- Dead code elimination is invisible. Take a program without foreign commands, any interpretation
of its commands and of its branches by what they read, any block and fresh facts. After the pass on
the block, whatever a run of the program has done so far, a run from the same state comes to do,
and the other way round: it decides the same branches alike and writes memory with the same inputs,
in the same order. If it has ended, both have ended in the same way with the same memory, and at a
return the reserved registers, the results and the registers that a call keeps have the same
values. -/
theorem dead_code_elimination_invisible (I : Interpretation V M) (holds : Inputs V M → Bool)
    (o : Options) (code : List Instr) (known : ∀ p ∈ code, p.isKnown = true) (next : Nat)
    (tally : Tally) (id : Nat) (b : Block) (here : (Graph.build code).block? id = some b)
    (s : MachineState V M) :
    let C := I.control holds
    let code' := (Pass.deadCode.apply o (.create o (Graph.build code) next tally) b).1.graph.flatten
    let SameSoFar := Control.Alike (I.effect? holds)
      (I.EndAlike (o.reserved ++ Reg.results ++ Reg.calleeSaved))
    (∀ n, ∃ n', SameSoFar (C.run code n (Control.start code s))
        (C.run code' n' (Control.start code' s))) ∧
      ∀ n', ∃ n, SameSoFar (C.run code n (Control.start code s))
        (C.run code' n' (Control.start code' s)) := by
  intro C code' SameSoFar
  have regular := Graph.build_regular code
  have isPlace : b.id = id := regular.place here
  let f := Facts.analyze (Graph.build code) o.reserved
  let v := f.view o.annotated b
  have cleans : Cleans v b.code (DeadCode.run v b.code) :=
    run_cleans fun _ => (Graph.jumpsLast_build here).2
  have cleaned : Cleaned o.annotated f (Graph.build code)
      ((Graph.build code).setCode b.id (DeadCode.run v b.code)) :=
    .setCode (isPlace ▸ here) cleans
  have grounds : Grounds o.annotated f o.reserved code
      ((Graph.build code).setCode b.id (DeadCode.run v b.code)) :=
    ⟨analyze_liveSound regular, cleaned, known⟩
  have together := @Level.together V M I holds _ _ _ _ _ grounds
  exact ⟨fun n => Control.alike_of_together together n _ _ (.start grounds s),
    fun n' => Control.alike_of_together' together n' _ _ (.start grounds s)⟩

/-- A loop whose block is its own successor. One of its commands is dead only when another one has
gone. What is left writes memory twice, and decides twice, as before. -/
theorem dead_code_elimination_invisible_loop :
    let general (n : Fin 32) := Operand.reg (.general n)
    let code : List Instr := [.ofCommand 1 (.loadImm (.general 8) 2), ⟨2, .label "Loop", "", []⟩,
      .ofCommand 3 (.ofOpcode .addu [general 9, general 8, general 8]),
      .ofCommand 4 (.ofOpcode .addu [general 10, general 9, general 9]),
      .ofCommand 5 (.ofOpcode .sw [general 8, .mem (.number 0) (.general 29)]),
      .ofCommand 6 (.ofOpcode .addiu [general 8, general 8, .imm (-1)]),
      .ofCommand 7 (.ofOpcode .bne [general 8, general 0, .sym "Loop"]),
      .ofCommand 8 (.ofOpcode .jr [.reg Reg.link])]
    let I := Words.meaning fun _ _ => none
    let holds (i : Inputs Word Memory) : Bool :=
      (i.operands.head?.map Seen.word) ≠ (i.operands.tail.head?.map Seen.word)
    let C := I.control holds
    let b : Block := { id := 1, code := (code.drop 1).take 6, succ := [1, 2], pred := [0, 1] }
    let code' := (Pass.deadCode.apply {} (.create {} (Graph.build code) 9 {}) b).1.graph.flatten
    let s : MachineState Word Memory := ⟨fun _ => 0, fun _ => 0⟩
    let outline : Interpretation.Effect Word Memory → Nat × Bool
      | .branch id taken => (id, taken)
      | .write id _ => (id, true)
    code'.map Instr.id = [1, 2, 5, 6, 7, 8] ∧
      ∃ n', ((C.run code' n' (Control.start code' s)).executed.filterMap (I.effect? holds)).map
        outline = [(5, true), (7, true), (5, true), (7, false)] := by
  intro general code I holds C b code' s outline
  have known : ∀ p ∈ code, p.isKnown = true := by decide
  have here : (Graph.build code).block? 1 = some b := by decide +kernel
  have before : ((C.run code 20 (Control.start code s)).executed.filterMap (I.effect? holds)).map
      outline = [(5, true), (7, true), (5, true), (7, false)] := by decide +kernel
  obtain ⟨n', alike⟩ :=
    (dead_code_elimination_invisible I holds {} code known 9 {} 1 b here s).1 20
  refine ⟨by decide +kernel, n', ?_⟩
  rw [← before]
  exact congrArg (List.map outline) alike.executed

end DeadCode

end MipsFlow
