import MipsFlow.Proofs.RelabelledRuns

/-!
# Notes are all that the annotation level changes

Two runs at different levels do the same as one run that leaves no notes, on the program without its
notes (`Optimizer.seen_eq_of_silent`). So they agree in everything but notes.

* `Optimizer.level_shows_in_notes_only`: at any two levels the optimizer leaves the same program,
  with the same identities, the same next identity and the same summary, gives up after the same
  number of rounds, and faults alike. At level zero no instruction gains a note, and none loses one.
-/

namespace MipsFlow

namespace Optimizer

variable {o o' : Options} {program : Program}

theorem seen_relabel_id (s : State) : (s.relabel id).seen = s.seen := by
  refine State.seen_eq ?_ rfl rfl rfl
  show (s.program.code.map (Instr.relabel id)).map Instr.bare = s.program.code.map Instr.bare
  rw [List.map_map]
  rfl

/-- What is seen of a run is what is seen of a run without notes. -/
theorem seen_eq_of_silent (o : Options) (program : Program) :
    (run o program).map State.seen =
      (run o.silent ⟨program.code.map Instr.bare, program.nextId⟩).map State.seen := by
  have fresh : FreshFrom id program.nextId := fun _ _ => rfl
  have silent := run_relabel Function.injective_id o fresh
  simp only [seen_relabel_id] at silent
  exact silent.symm

/-- Instructions of a program that was optimized without leaving notes have the notes that they had
before, or are new and have none. -/
theorem notes_of_silent (silent : o.annotated = false) {final : State}
    (ran : run o program = .ok final) :
    ∀ q ∈ final.program.code,
      (∃ p ∈ program.code, q.id = p.id ∧ q.comment = p.comment ∧ q.notes = p.notes) ∨
        program.nextId ≤ q.id ∧ q.id < final.program.nextId ∧ q.notes = [] := by
  intro q member
  rcases (run_descends ran).origin q member with ⟨p, old, becomes⟩ | isNew
  · exact Or.inl ⟨p, old, becomes.id, becomes.comment, becomes.notes silent⟩
  · exact Or.inr ⟨isNew.above, isNew.below, isNew.notes silent⟩

/-- The annotation level shows in the notes only. Whatever the other options and the program, what
the optimizer leaves behind at one level agrees with what it leaves behind at another one, element
by element, in everything but the notes; the next identity and the summary are the same, it gives
up after the same number of rounds if at all, and it faults alike. At level zero, every instruction
that is left has the notes that it had before, or is new and has none. -/
theorem level_shows_in_notes_only (o : Options) (level : Nat) (program : Program) :
    (run { o with verbose := level } program).map State.seen = (run o program).map State.seen ∧
      ∀ final, run { o with verbose := 0 } program = .ok final → ∀ q ∈ final.program.code,
        (∃ p ∈ program.code, q.id = p.id ∧ q.comment = p.comment ∧ q.notes = p.notes) ∨
          program.nextId ≤ q.id ∧ q.id < final.program.nextId ∧ q.notes = [] := by
  refine ⟨?_, fun final ran => notes_of_silent rfl ran⟩
  rw [seen_eq_of_silent, seen_eq_of_silent o]
  rfl

/-- A shift by zero becomes a copy, which is moved into the label's block with no note on it, and
the note that was there stays. -/
theorem level_shows_in_notes_only_shift :
    let program : Program := ⟨[⟨1, .label "Half", "", ["seen before"]⟩,
      .ofCommand 2 (.ofOpcode .sll [.reg (.general 2), .reg (.general 4), .imm 0]),
      .ofCommand 3 (.ofOpcode .jr [.reg Reg.link])], 4⟩
    ∃ final, run { verbose := 0 } program = .ok final ∧
      (run { verbose := 2 } program).map State.seen = .ok final.seen ∧
      final.program.code.map (fun p => (p.id, p.notes)) =
        [(1, ["seen before"]), (4, []), (3, [])] ∧
      ∀ q ∈ final.program.code,
        (∃ p ∈ program.code, q.id = p.id ∧ q.comment = p.comment ∧ q.notes = p.notes) ∨
          program.nextId ≤ q.id ∧ q.id < final.program.nextId ∧ q.notes = [] := by
  intro program
  have shown : (run {} program).map (fun s => s.program.code.map fun p => (p.id, p.notes)) =
      .ok [(1, ["seen before"]), (4, []), (3, [])] := by decide +kernel
  cases ran : run {} program with
  | error fault => simp [ran, Except.map] at shown
  | ok final =>
    rw [ran] at shown
    obtain ⟨same, notes⟩ := level_shows_in_notes_only {} 2 program
    rw [ran] at same
    exact ⟨final, rfl, same, Except.ok.inj shown, notes final ran⟩

end Optimizer

end MipsFlow
