import MipsFlow.Optimizer.DeadCode
import MipsFlow.Proofs.Lightening

/-!
# Dead code elimination in a block

All commands that are dead at the same time go together, and then the block is searched again.
`Cleans` says what comes out of any number of rounds: each command that went had no effect but to
write registers that are not live behind it in what is left (`run_cleans`). So states that agree on
what the new code needs still do behind both pieces of code (`Cleans.agree`), under any
interpretation of the commands, and the pass lightens and refits the code of a block
(`deadCode_lightens`, `deadCode_refits`).
-/

namespace MipsFlow

namespace DeadCode

variable {V M : Type} {I : Interpretation V M} {s t : MachineState V M}
variable {v : View} {p p' : Instr} {c : Command} {rest rest' code a b d : List Instr} {r : Reg}

/-- What is live before some code of a block. -/
def liveBefore (v : View) (code : List Instr) : FactSet Reg :=
  Liveness.liveIn v.reserved v.unresolved v.liveOut code

/-- The second code is the first without commands that write nothing that is live behind them. -/
inductive Cleans (v : View) : List Instr → List Instr → Prop
  | nil : Cleans v [] []
  | keep {p p' : Instr} {rest rest' : List Instr} : p'.bare = p.bare → Cleans v rest rest' →
    Cleans v (p :: rest) (p' :: rest')
  | drop {p : Instr} {c : Command} {rest rest' : List Instr} : p.command? = some c →
    c.isPure = true → (∀ r ∈ p.defs, r ∉ liveBefore v rest') → Cleans v rest rest' →
    Cleans v (p :: rest) rest'

/-! ## Commands without effects -/

/-- A command without effects changes nothing but what it writes. -/
theorem agree_of_isPure (command : p.command? = some c) (pure : c.isPure = true)
    {live : FactSet Reg} (unwritten : ∀ r ∈ p.defs, r ∉ live) (agree : AgreeOn I live s t) :
    AgreeOn I live (I.execInstr p s) t := by
  obtain ⟨form, isForm, silent, clobbers⟩ := Command.form_of_isPure pure
  rw [I.execInstr_of_command command]
  refine ⟨(I.mem_exec isForm silent).trans agree.1, fun r member => ?_⟩
  rw [I.read_exec_of_not_mem_clobbers, agree.2 r member]
  rw [clobbers, ← defs_of_command command]
  exact fun written => unwritten r written member

/-! ## Cleaning -/

namespace Cleans

theorem of_bare (same : a.map Instr.bare = b.map Instr.bare) : Cleans v a b := by
  replace same := forall₂_of_map_eq same
  induction same with
  | nil => exact .nil
  | cons same _ ih => exact .keep same.symm ih

theorem eq_nil (cleans : Cleans v [] b) : b = [] := by
  cases cleans with
  | nil => rfl

theorem jumpsLast (cleans : Cleans v a b) (last : JumpsLast a) : JumpsLast b := by
  induction cleans with
  | nil => exact last
  | keep same cleans ih =>
    refine ⟨fun jumps => ?_, ih last.2⟩
    have none := last.1 ((isJump_congr (Instr.content_of_bare same)).symm.trans jumps)
    subst none
    exact cleans.eq_nil
  | drop _ _ _ _ ih => exact ih last.2

/-- The new code needs no more than the old. An unresolved block has its jump at the end, where it
stays. -/
theorem live (cleans : Cleans v a b) (tidy : v.unresolved = true → JumpsLast a)
    (member : r ∈ liveBefore v b) : r ∈ liveBefore v a := by
  unfold liveBefore at member ⊢
  induction cleans with
  | nil => exact member
  | @keep p p' rest rest' same cleans ih =>
    have content := Instr.content_of_bare same
    rw [Liveness.mem_liveIn_cons, Liveness.mem_usesBefore, uses_congr content, defs_congr content,
      isJump_congr content] at member
    rw [Liveness.mem_liveIn_cons, Liveness.mem_usesBefore]
    rcases member with (read | ⟨⟨unresolved, -, jumps⟩, isForced⟩) | ⟨later, kept⟩
    · exact Or.inl (Or.inl read)
    · -- nothing is behind the jump, in the old code as well
      exact Or.inl (Or.inr ⟨⟨unresolved, (tidy unresolved).1 jumps, jumps⟩, isForced⟩)
    · exact Or.inr ⟨ih (fun unresolved => (tidy unresolved).2) later, kept⟩
  | @drop p c rest rest' command pure unwritten cleans ih =>
    rw [Liveness.mem_liveIn_cons]
    have later := ih (fun unresolved => (tidy unresolved).2) member
    exact Or.inr ⟨later, Or.inr fun written => unwritten r written member⟩

theorem trans (first : Cleans v a b) (second : Cleans v b d)
    (tidy : v.unresolved = true → JumpsLast a) : Cleans v a d := by
  induction first generalizing d with
  | nil => exact second
  | keep same first ih =>
    have tidyRest := fun unresolved => (tidy unresolved).2
    cases second with
    | keep same' second => exact .keep (same'.trans same) (ih second tidyRest)
    | drop command pure unwritten second =>
      have content := Instr.content_of_bare same
      rw [Interpretation.command?_congr content] at command
      rw [defs_congr content] at unwritten
      exact .drop command pure unwritten (ih second tidyRest)
  | @drop p c rest rest' command pure unwritten first ih =>
    have tidyRest := fun unresolved => (tidy unresolved).2
    have tidyNew := fun unresolved => first.jumpsLast (tidyRest unresolved)
    exact .drop command pure (fun r written live => unwritten r written (second.live tidyNew live))
      (ih second tidyRest)

/-- States that agree on what the new code needs agree behind both pieces of code on what is live
there, and these take the same decision. -/
theorem agree (cleans : Cleans v a b) (known : ∀ p ∈ a, p.isKnown = true)
    (agree : AgreeOn I (liveBefore v b) s t) :
    AgreeOn I v.liveOut (I.execAll a s) (I.execAll b t) ∧
      ∀ here, I.leave here b t = I.leave here a s := by
  induction cleans generalizing s t with
  | nil => exact ⟨agree, fun _ => rfl⟩
  | @keep p p' rest rest' same cleans ih =>
    obtain ⟨knownHere, knownRest⟩ := List.forall_mem_cons.1 known
    have command := Interpretation.command?_congr (Instr.content_of_bare same)
    have knownNew : p'.isKnown = true := by
      rw [Instr.isKnown, command]
      exact knownHere
    obtain ⟨agreeRest, decides⟩ := Liveness.agree_execInstr knownNew agree
    have executes : I.execInstr p' s = I.execInstr p s := by
      rw [Interpretation.execInstr, command]
      rfl
    rw [executes] at agreeRest
    obtain ⟨ends, leaves⟩ := ih knownRest agreeRest
    refine ⟨ends, fun here => ?_⟩
    have decides' : I.decideInstr here p' s = I.decideInstr here p s := by
      rw [Interpretation.decideInstr, command]
      rfl
    rw [Interpretation.leave_cons, Interpretation.leave_cons, leaves, ← decides, decides']
  | @drop p c rest rest' command pure unwritten cleans ih =>
    obtain ⟨-, knownRest⟩ := List.forall_mem_cons.1 known
    obtain ⟨ends, leaves⟩ := ih knownRest (agree_of_isPure command pure unwritten agree)
    refine ⟨ends, fun here => ?_⟩
    have stays : p.isJump = false :=
      (Instr.isJump_of_command command).trans (Command.isJump_of_isPure pure)
    rw [Interpretation.leave_cons, leaves, I.decideInstr_of_stays stays, Option.or_none]

theorem reworked (cleans : Cleans v a b) : Reworked a b := by
  induction cleans with
  | nil => exact .refl []
  | @keep p p' rest rest' same cleans ih =>
    have exchanged : Reworked (p :: rest') (p' :: rest') :=
      .same (by simp [Instr.content_of_bare same])
    exact (ih.cons p).trans exchanged
  | @drop p c rest rest' command pure unwritten cleans ih =>
    have plain := Instr.isPlain_of_command command (Command.isJump_of_isPure pure)
    have dropped : Reworked ([] ++ [p] ++ rest) ([] ++ [] ++ rest) :=
      .window [] rest (by simp) (by simpa using plain) (by simp)
    exact Reworked.trans dropped ih

/-- Every instruction that is left was there, up to notes. -/
theorem of_mem (cleans : Cleans v a b) (member : p' ∈ b) : ∃ p ∈ a, p'.bare = p.bare := by
  induction cleans with
  | nil => simp at member
  | @keep p q rest rest' same _ ih =>
    rcases List.mem_cons.1 member with rfl | later
    · exact ⟨p, List.mem_cons_self .., same⟩
    · obtain ⟨q, inside, isSame⟩ := ih later
      exact ⟨q, List.mem_cons_of_mem _ inside, isSame⟩
  | drop _ _ _ _ ih =>
    obtain ⟨q, inside, isSame⟩ := ih member
    exact ⟨q, List.mem_cons_of_mem _ inside, isSame⟩

end Cleans

/-! ## Rounds -/

/-- The code without its dead commands. -/
def cleaned (v : View) : List Instr → List Instr
  | [] => []
  | p :: rest => if isDead v p rest then cleaned v rest else p :: cleaned v rest

theorem bare_removeAt (i : Nat) (code : List Instr) :
    (removeAt v i code).map Instr.bare = (code.map Instr.bare).eraseIdx i := by
  unfold removeAt
  split
  · rw [Edit.bare_splice, Edit.exchange, List.append_nil, List.eraseIdx_eq_take_drop_succ]
    simp
  · next missing =>
    rw [List.eraseIdx_of_length_le]
    simpa using missing

theorem bare_removeAll (positions : List Nat) (code : List Instr) :
    (positions.foldr (removeAt v) code).map Instr.bare =
      positions.foldr (fun i left => left.eraseIdx i) (code.map Instr.bare) := by
  induction positions with
  | nil => rfl
  | cons i positions ih => rw [List.foldr_cons, List.foldr_cons, bare_removeAt, ih]

/-- Removing the dead commands from the last one on leaves the others. -/
theorem erase_deadFrom (v : View) (code : List Instr) (before : List Instr) :
    (deadFrom v before.length code).foldr (fun i left => left.eraseIdx i)
        (before ++ code.map Instr.bare) = before ++ (cleaned v code).map Instr.bare := by
  induction code generalizing before with
  | nil => rfl
  | cons p rest ih =>
    have later := ih (before ++ [p.bare])
    rw [List.length_append, List.append_assoc, List.append_assoc] at later
    unfold deadFrom cleaned
    split
    · rw [List.foldr_cons, List.map_cons]
      simp only [List.length_singleton, List.singleton_append] at later
      rw [later, List.eraseIdx_append_of_length_le (by omega), Nat.sub_self]
      rfl
    · exact later

/-- A step of the pass removes what is dead, from the last position on. -/
theorem step_eq_some {code' : List Instr} (stepped : step v code = some code') :
    deadFrom v 0 code ≠ [] ∧ code' = (deadFrom v 0 code).foldr (removeAt v) code := by
  unfold step at stepped
  split at stepped
  · contradiction
  · next some =>
    cases stepped
    exact ⟨some, rfl⟩

theorem bare_step {code' : List Instr} (stepped : step v code = some code') :
    code'.map Instr.bare = (cleaned v code).map Instr.bare := by
  obtain ⟨-, rfl⟩ := step_eq_some stepped
  have erased := erase_deadFrom v code []
  rw [bare_removeAll]
  simpa using erased

/-- A dead command has no effects, and nobody needs what it writes. -/
theorem of_isDead (dead : isDead v p rest = true) :
    ∃ c, p.command? = some c ∧ c.isPure = true ∧ ∀ r ∈ p.defs, v.dead rest r = true := by
  simp only [isDead, Instr.isCommandWith, Bool.and_eq_true, List.all_eq_true] at dead
  obtain ⟨⟨isPure, -⟩, unneeded⟩ := dead
  obtain ⟨c, command, pure⟩ := (Option.any_eq_true _ _).1 isPure
  exact ⟨c, command, pure, unneeded⟩

/-- One round. What is dead before commands that go as well is dead before what is left. -/
theorem cleaned_cleans (tidy : v.unresolved = true → JumpsLast code) :
    Cleans v code (cleaned v code) := by
  induction code with
  | nil => exact .nil
  | cons p rest ih =>
    have tidyRest : v.unresolved = true → JumpsLast rest := fun unresolved => (tidy unresolved).2
    have cleans := ih tidyRest
    unfold cleaned
    split
    · next dead =>
      obtain ⟨c, command, pure, unneeded⟩ := of_isDead dead
      refine .drop command pure (fun r written live => ?_) cleans
      exact (Liveness.not_mem_liveIn_of_dead (unneeded r written)).2 (cleans.live tidyRest live)
    · exact .keep rfl cleans

/-- The pass cleans the code of a block. -/
theorem run_cleans (tidy : v.unresolved = true → JumpsLast code) :
    Cleans v code (DeadCode.run v code) := by
  unfold DeadCode.run
  generalize code.length = fuel
  induction fuel generalizing code with
  | zero => exact .of_bare rfl
  | succ fuel ih =>
    unfold exhaust
    cases stepped : step v code with
    | none => exact .of_bare rfl
    | some code' =>
      have cleans : Cleans v code code' :=
        (cleaned_cleans tidy).trans (.of_bare (bare_step stepped).symm) tidy
      exact cleans.trans (ih fun unresolved => cleans.jumpsLast (tidy unresolved)) tidy

/-- Dead code elimination lightens the code of a block. -/
theorem deadCode_lightens (last : JumpsLast code) : Lightens v code (DeadCode.run v code) := by
  have cleans : Cleans v code (DeadCode.run v code) := run_cleans fun _ => last
  refine ⟨cleans.reworked, .of_content fun q member => ?_, fun _ _ => cleans.live fun _ => last⟩
  obtain ⟨p, inside, same⟩ := cleans.of_mem member
  exact ⟨p, inside, (Instr.content_of_bare same).symm⟩

/-- Code that is cleaned of dead commands is improved. -/
theorem Cleans.improves (cleans : Cleans v a b) (sees : v.unresolved = false)
    (known : ∀ p ∈ a, p.isKnown = true) : Improves I v.reserved v.liveOut a b := by
  refine ⟨fun s => (cleans.agree known (.refl _ s)).1,
    fun here s => (cleans.agree known (.refl _ s)).2 here, fun r member => ?_⟩
  rw [← sees] at member ⊢
  exact cleans.live (by simp [sees]) member

/-- Dead code elimination refits the code of a block. -/
theorem deadCode_refits (sees : v.unresolved = false) (code : List Instr) :
    Refits v code (DeadCode.run v code) := by
  have cleans : Cleans v code (DeadCode.run v code) := run_cleans (by simp [sees])
  intro runs
  have known : ∀ p ∈ code, p.isKnown = true := fun p member => (runs p member).isKnown
  refine ⟨fun places => cleans.improves sees known, cleans.reworked,
    fun p' member c command => ?_⟩
  obtain ⟨p, inside, same⟩ := cleans.of_mem member
  rw [Interpretation.command?_congr (Instr.content_of_bare same)] at command
  exact runs p inside c command

end DeadCode

end MipsFlow
