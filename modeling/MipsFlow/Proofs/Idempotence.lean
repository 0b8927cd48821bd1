import MipsFlow.Proofs.Rereading
import MipsFlow.Proofs.SettledPrograms

/-!
# Optimizing twice

A program that the optimizer has converged on is settled, so a second run ends after one cycle and
changes nothing. The same holds when the program is written and read again in between, if no notes
are left on it: what is read has the same instructions under other identities
(`Program.relabel_reread`), and identities do not decide what is settled (`settled_relabel`).

* `Optimizer.optimizing_twice_changes_nothing`: the second run after the first one, and after the
  text of the first one's result.
-/

namespace MipsFlow

namespace Optimizer

variable {o : Options} {program : Program} {final : State} {source name name' : String}

/-- The run finds nothing to do: the program, its notes and the next identity are left as they were,
and one cycle was enough to see it. -/
structure Rests (o : Options) (program : Program) (again : State) : Prop where
  ran : run o program = .ok again
  same : again.program = program
  summary : again.summary = ⟨program.size, program.size, program.size, 1, program.size⟩
  converged : again.notConverging = none

/-- Reading a program again does not give the optimizer anything to do. -/
theorem settled_reread (numbered : program.Numbered) (bare : ∀ p ∈ program.code, p.notes = [])
    (settled : Settled o program) : Settled o program.reread := by
  let f := Program.renumber (program.code.map Instr.id) program.nextId
  have fresh : FreshFrom f program.reread.nextId := by
    have length : program.reread.nextId = (program.code.map Instr.id).length + 1 := by
      simp [Program.reread, Program.ofItems]
    exact length ▸ Program.freshFrom_renumber _ _
  have same : program.reread.relabel f = program := Program.relabel_reread bare
  have silent := (settled_relabel Function.injective_id (fun _ _ => rfl) o).2 settled
  rw [Program.relabel_id_of_bare bare] at silent
  rw [← settled_relabel numbered.injective fresh, same]
  exact silent

/-- What is written depends on contents, comments and notes. -/
theorem text_eq_of_words {p q : Program}
    (words : p.code.map (fun x => (x.content, x.comment, x.notes)) =
      q.code.map fun x => (x.content, x.comment, x.notes)) : p.text = q.text := by
  have written (code : List Instr) : (code.map fun x => x.line ++ "\n") =
      (code.map fun x => (x.content, x.comment, x.notes)).map fun w =>
        w.1.line ++ Printer.trailer w.2.1 w.2.2 ++ "\n" := by
    rw [List.map_map]
    rfl
  unfold Program.text listing
  rw [written, written, words]

theorem words_reread (bare : ∀ p ∈ program.code, p.notes = []) :
    program.reread.code.map (fun x => (x.content, x.comment, x.notes)) =
      program.code.map fun x => (x.content, x.comment, x.notes) := by
  have silent (p : Program) (bare : ∀ x ∈ p.code, x.notes = []) :
      p.code.map (fun x => (x.content, x.comment, x.notes)) =
        (p.code.map fun x => (x.content, x.comment)).map fun w => (w.1, w.2, []) := by
    rw [List.map_map]
    exact List.map_congr_left fun x member => by simp [bare x member]
  rw [silent program bare, silent program.reread (Program.bare_ofItems _), Program.reread,
    Program.items_ofItems]

theorem parse_eq_ok : Program.parse name source = .ok program ↔
    Program.read source.toList = .ok program := by
  unfold Program.parse
  cases Program.read source.toList <;> simp

/-- The optimizer is idempotent. A run on a program that has been optimized, with the same options
and whatever limit the first run has come from, reports one cycle and the same size throughout, and
leaves the instructions, their notes and the next identity as they were. At level zero the optimized
program can also be written and read again: what comes back agrees with it in every content, comment
and note, it is left alone in the same way, and its text is the same. -/
theorem optimizing_twice_changes_nothing (parsed : Program.parse name source = .ok program)
    (ran : run o program = .ok final) (converged : final.notConverging = none) (name' : String) :
    (∃ again, Rests o final.program again) ∧
      (o.verbose = 0 → ∃ reread again, Program.parse name' final.program.text = .ok reread ∧
        reread.code.map (fun p => (p.content, p.comment, p.notes)) =
          final.program.code.map (fun p => (p.content, p.comment, p.notes)) ∧
        Rests o reread again ∧ again.program.text = final.program.text) := by
  constructor
  · obtain ⟨again, isAgain, same, summary, rests⟩ := run_of_run ran converged
    exact ⟨again, isAgain, same, summary, rests⟩
  · intro level
    have silent : o.annotated = false := by simp [Options.annotated, level]
    have isRead := parse_eq_ok.1 parsed
    obtain ⟨items, rfl, -⟩ := Program.exists_items_of_read isRead
    have legible := legible_of_run silent (Program.legible_of_read isRead) ran
    have numbered := numbered_of_run (Program.numbered_ofItems items) ran
    have settled := settled_reread numbered legible.bare (settled_of_run ran converged).1
    obtain ⟨again, isAgain, same, summary, rests⟩ := run_of_settled settled
    have same : again.program = final.program.reread := by
      simpa [Options.summarize, level] using same
    have words := words_reread legible.bare
    exact ⟨final.program.reread, again, parse_eq_ok.2 (Program.read_text legible), words,
      ⟨isAgain, same, summary, rests⟩, same ▸ text_eq_of_words words⟩

/-- A shift by zero becomes a copy, and spellings are replaced: what is left stays as it is. -/
theorem optimizing_twice_changes_nothing_shift :
    let source := "\t.text # code\nmain:  sll $v0, $a0, 0x0 # a copy\nlw $v1 , x+4 ($sp)\n\tjr $ra"
    let left := "\t.text\t\t# code\nmain:\n\tmove\t$2,$4\n\tlw\t$3,x+4 ($sp)\n\tjr\t$31\n"
    ∃ program final, Program.parse "half.s" source = .ok program ∧ run {} program = .ok final ∧
      final.notConverging = none ∧ final.program.text = left ∧
      (∃ again, Rests {} final.program again) ∧
      ∃ reread again, Program.parse "left.s" left = .ok reread ∧
        reread.code.map (fun p => (p.content, p.comment, p.notes)) =
          final.program.code.map (fun p => (p.content, p.comment, p.notes)) ∧
        Rests {} reread again ∧ again.program.text = left := by
  intro source left
  have shown : ((Program.parse "half.s" source).toOption.bind fun program =>
      (run {} program).toOption.map fun s => (s.notConverging, s.program.text)) =
        some (none, left) := by decide +kernel
  cases parsed : Program.parse "half.s" source with
  | error e =>
    rw [parsed] at shown
    contradiction
  | ok program =>
    rw [parsed] at shown
    cases ran : run {} program with
    | error fault =>
      simp only [Except.toOption, Option.bind, ran] at shown
      contradiction
    | ok final =>
      simp only [Except.toOption, Option.bind, ran, Option.map_some, Option.some.injEq,
        Prod.mk.injEq] at shown
      obtain ⟨converged, text⟩ := shown
      obtain ⟨rests, rereads⟩ := optimizing_twice_changes_nothing parsed ran converged "left.s"
      have rereads := rereads rfl
      rw [text] at rereads
      exact ⟨program, final, rfl, ran, converged, text, rests, rereads⟩

end Optimizer

end MipsFlow
