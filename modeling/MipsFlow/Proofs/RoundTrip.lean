import MipsFlow.Proofs.Idempotence

/-!
# Writing and reading again

A program that has been read is legible: every word in it is one that is read back as it is written.
The optimizer keeps a program legible as long as it leaves no notes, whether it converges or gives
up, so this goes on however often the program is optimized and with whatever options
(`Optimizer.legible_of_optimized`). A legible program comes back from its text with the same
contents and comments, and so does the text.

* `Optimizer.text_round_trip`: a program that has been read, and optimized any number of times
  without notes, is read back from its text, instruction for instruction.
-/

namespace MipsFlow

namespace Optimizer

variable {program result : Program} {source name : String}

/-- One run of the optimizer at level zero makes the second program out of the first one. Whether
the run converges does not matter. -/
def Optimizes (before after : Program) : Prop :=
  ∃ o final, o.verbose = 0 ∧ run o before = .ok final ∧ final.program = after

/-- Any number of runs that leave no notes keep a program legible. -/
theorem legible_of_optimized (legible : program.Legible)
    (optimized : Relation.ReflTransGen Optimizes program result) : result.Legible := by
  induction optimized with
  | refl => exact legible
  | tail _ last ih =>
    obtain ⟨o, final, level, ran, rfl⟩ := last
    have silent : o.annotated = false := by simp [Options.annotated, level]
    exact legible_of_run silent ih ran

/-- Contents and comments come back from the text of a legible program, and so does the text. -/
theorem parse_text (legible : result.Legible) (name : String) :
    Program.parse name result.text = .ok result.reread ∧
      result.reread.code.map (fun p => (p.content, p.comment)) =
        result.code.map (fun p => (p.content, p.comment)) ∧
      result.reread.text = result.text :=
  ⟨parse_eq_ok.2 (Program.read_text legible), Program.items_ofItems _,
    text_eq_of_words (words_reread legible.bare)⟩

/-- Printing and parsing are inverse. Take any source that is accepted, and its program as it was
read or after any number of runs at level zero, with any other options and whether they converge or
not. The text of that program is accepted under any name; the instructions that come back agree with
those of the program one by one in kind, mnemonic, operands, text, indentation and comment; and what
comes back has the same text. -/
theorem text_round_trip (parsed : Program.parse name source = .ok program)
    (optimized : Relation.ReflTransGen Optimizes program result) (name' : String) :
    ∃ again, Program.parse name' result.text = .ok again ∧
      again.code.map (fun p => (p.content, p.comment)) =
        result.code.map (fun p => (p.content, p.comment)) ∧
      again.text = result.text := by
  have legible := legible_of_optimized (Program.legible_of_read (parse_eq_ok.1 parsed)) optimized
  exact ⟨result.reread, parse_text legible name'⟩

/-- A label that is also a mnemonic, an offset that is an expression, and two runs of which the
first is stopped after one round. -/
theorem text_round_trip_stopped :
    let source := "\t.text # code\nadd:  sll $v0, $a0, 0x0 # a copy\nlw $v1 , x+4 ($sp)\n\tjr $ra"
    let left := "\t.text\t\t# code\nadd:\n\tmove\t$2,$4\n\tlw\t$3,x+4 ($sp)\n\tjr\t$31\n"
    ∃ program once twice, Program.parse "half.s" source = .ok program ∧
      Optimizes program once ∧ Optimizes once twice ∧ twice.text = left ∧
      ∃ again, Program.parse "left.s" left = .ok again ∧
        again.code.map (fun p => (p.content, p.comment)) =
          twice.code.map (fun p => (p.content, p.comment)) ∧
        again.text = left := by
  intro source left
  have shown : ((Program.parse "half.s" source).toOption.bind fun program =>
      (run { maxCycles := 1 } program).toOption.bind fun once =>
        (run {} once.program).toOption.map fun twice => twice.program.text) = some left := by
    decide +kernel
  simp only [Option.bind_eq_some_iff, Option.map_eq_some_iff] at shown
  obtain ⟨program, parsed, once, first, twice, second, text⟩ := shown
  have isRead := ok_of_toOption parsed
  have stopped : Optimizes program once.program := ⟨_, once, rfl, ok_of_toOption first, rfl⟩
  have settled : Optimizes once.program twice.program :=
    ⟨_, twice, rfl, ok_of_toOption second, rfl⟩
  have comesBack := text_round_trip isRead (.tail (.single stopped) settled) "left.s"
  rw [text] at comesBack
  exact ⟨program, once.program, twice.program, isRead, stopped, settled, text, comesBack⟩

end Optimizer

end MipsFlow
