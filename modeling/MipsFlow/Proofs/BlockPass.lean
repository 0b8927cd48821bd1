import MipsFlow.Optimizer.Exhaust
import MipsFlow.Proofs.Machine
import MipsFlow.Proofs.Rework

/-!
# Passes over a block, on the machine

`Refits` is what a pass over a block has to show for programs that the machine runs: the new code
improves the old one, comes from it by reworking, and is run by the machine again. It may be shown
step by step (`Refits.exhaust`), instruction by instruction (`Refits.cons`), or for a window of
plain commands (`WindowRefits`).
-/

namespace MipsFlow

/-- What holds where nothing is done, and is passed on by every step, holds of a repeated step. -/
theorem exhaust_induction {α : Type} (R : α → α → Prop) {step : α → Option α} (refl : ∀ a, R a a)
    (next : ∀ {a b c}, step a = some b → R b c → R a c) (fuel : Nat) (a : α) :
    R a (exhaust step fuel a) := by
  induction fuel generalizing a with
  | zero => exact refl a
  | succ fuel ih =>
    unfold exhaust
    cases stepped : step a with
    | none => exact refl a
    | some b => exact next stepped (ih b)

/-- If the machine runs the first piece of code, then the second one improves it, comes from it by
reworking, and is run by the machine as well. -/
def Refits (v : View) (code code' : List Instr) : Prop :=
  (∀ p ∈ code, Machine.Runs p) →
    (∀ places, Improves (Machine.meaning places) v.reserved v.liveOut code code') ∧
      Reworked code code' ∧ ∀ p ∈ code', Machine.Runs p

namespace Refits

variable {v : View} {a b c : List Instr}

theorem of_content (same : a.map Instr.content = b.map Instr.content) : Refits v a b := by
  refine fun runs => ⟨fun _ => .of_content same, .same same, fun q member => ?_⟩
  obtain ⟨i, inside, rfl⟩ := List.mem_iff_getElem.1 member
  have lengths := congrArg List.length same
  simp only [List.length_map] at lengths
  have content : a[i].content = b[i].content := by
    have atI := congrArg (fun contents => contents[i]?) same
    simpa [inside, lengths] using atI
  intro d command
  rw [← Interpretation.command?_congr content] at command
  exact runs _ (List.getElem_mem (by omega)) d command

theorem refl (code : List Instr) : Refits v code code := .of_content rfl

theorem trans (first : Refits v a b) (second : Refits v b c) : Refits v a c := by
  intro runs
  obtain ⟨improves, reworked, runs'⟩ := first runs
  obtain ⟨improves', reworked', runs''⟩ := second runs'
  exact ⟨fun places => (improves places).trans (improves' places), reworked.trans reworked', runs''⟩

/-- A pass that repeats a step refits if every step does. -/
theorem exhaust {step : BlockCode → Option BlockCode}
    (refits : ∀ block block', step block = some block' → Refits v block.code block'.code)
    (fuel : Nat) (block : BlockCode) :
    Refits v block.code (MipsFlow.exhaust step fuel block).code :=
  exhaust_induction (fun a b => Refits v a.code b.code) (fun a => .refl a.code)
    (fun stepped later => (refits _ _ stepped).trans later) fuel block

end Refits

namespace Machine

/-- The machine runs known instructions only. -/
theorem Runs.isKnown {p : Instr} (runs : Runs p) : p.isKnown = true := by
  unfold Instr.isKnown
  cases command : p.command? with
  | none => rfl
  | some c => simp [(runs c command).known.1]

theorem runs_of_command {p : Instr} {c : Command} (command : p.command? = some c)
    (understood : Understood c) : Runs p := by
  intro d isCommand
  rw [command] at isCommand
  cases isCommand
  exact understood

theorem execInstr_eq_step (places : String → Option Nat) (s : State) {p : Instr} {c : Command}
    (command : p.command? = some c) (understood : Understood c) :
    (meaning places).execInstr p s = step c s := by
  unfold Interpretation.execInstr
  rw [command]
  exact exec_eq_step understood

theorem Understood.copy_inv {a b : Reg} (understood : Understood (.copy a b)) :
    Target a ∧ Named b := by
  generalize isCopy : Command.copy a b = c at understood
  cases understood <;> simp [Command.copy, Command.ofOpcode] at isCopy
  case move d x target source =>
    obtain ⟨rfl, rfl⟩ := isCopy
    exact ⟨target, source⟩

theorem understood_copy {a b : Reg} (target : Target a) (named : Named b) :
    Understood (.copy a b) := .move a (.reg b) target named

end Machine

namespace View

variable (v : View)

@[simp] theorem command?_succeed (old new : Instr) (note : String) :
    (v.succeed old new note).command? = new.command? := by
  unfold succeed
  split
  · exact Interpretation.command?_congr (Instr.content_annotate ..)
  · rfl

@[simp] theorem command?_noted (p : Instr) (note : String) :
    (v.noted p note).command? = p.command? := by
  unfold noted
  split
  · exact Interpretation.command?_congr (Instr.content_note ..)
  · rfl

end View

section Windows

variable {v : View} {p : Instr} {c : Command} {rest : List Instr}

/-! ## What windows need -/

theorem uses_of_command (command : p.command? = some c) : p.uses = c.uses := by
  simp [Instr.uses, command]

theorem defs_of_command (command : p.command? = some c) : p.defs = c.defs := by
  simp [Instr.defs, command]

section Needs

variable {reserved out : FactSet Reg} {q q' : Instr} {r : Reg}

theorem mem_liveIn_one : r ∈ Liveness.liveIn reserved false out [p] ↔
    r ∈ p.uses ∨ r ∈ out ∧ (r ∈ reserved ∨ r ∉ p.defs) := by
  rw [Liveness.mem_liveIn_cons]
  rfl

/-- A command that reads whatever it writes may go. -/
theorem live_drop (reads : ∀ r ∈ p.defs, r ∈ p.uses)
    (live : r ∈ Liveness.liveIn reserved false out []) :
    r ∈ Liveness.liveIn reserved false out [p] := by
  rw [mem_liveIn_one]
  by_cases written : r ∈ p.defs
  · exact Or.inl (reads r written)
  · exact Or.inr ⟨live, Or.inr written⟩

/-- A command that writes only what the one before it reads may go. -/
theorem live_drop_second (reads : ∀ r ∈ q.defs, r ∈ p.uses)
    (live : r ∈ Liveness.liveIn reserved false out [p]) :
    r ∈ Liveness.liveIn reserved false out [p, q] := by
  rw [Liveness.mem_liveIn_cons, mem_liveIn_one]
  rcases mem_liveIn_one.1 live with read | ⟨behind, kept⟩
  · exact Or.inl read
  · by_cases written : r ∈ q.defs
    · exact Or.inl (reads r written)
    · exact Or.inr ⟨Or.inr ⟨behind, Or.inr written⟩, kept⟩

/-- A command may take the place of one that reads more and writes less. -/
theorem live_replace (reads : ∀ r ∈ q.uses, r ∈ p.uses) (writes : ∀ r ∈ p.defs, r ∈ q.defs)
    (live : r ∈ Liveness.liveIn reserved false out [q]) :
    r ∈ Liveness.liveIn reserved false out [p] := by
  rw [mem_liveIn_one] at live ⊢
  refine live.imp (reads r) (And.imp_right (Or.imp_right fun kept written => ?_))
  exact kept (writes r written)

/-- A command may take the place of two, if it reads what they read, and writes what they write
and do not read. -/
theorem live_merge (reads : ∀ r ∈ q'.uses, r ∈ p.uses ∨ r ∈ q.uses ∧ r ∉ p.defs)
    (writes : ∀ r ∈ q.defs, r ∈ q'.defs) (covers : ∀ r ∈ p.defs, r ∈ p.uses ∨ r ∈ q'.defs)
    (live : r ∈ Liveness.liveIn reserved false out [q']) :
    r ∈ Liveness.liveIn reserved false out [p, q] := by
  rw [Liveness.mem_liveIn_cons, mem_liveIn_one, Liveness.usesBefore_false]
  rcases mem_liveIn_one.1 live with read | ⟨behind, kept⟩
  · rcases reads r read with here | ⟨later, unwritten⟩
    · exact Or.inl here
    · exact Or.inr ⟨Or.inl later, Or.inr unwritten⟩
  · by_cases fixed : r ∈ reserved
    · exact Or.inr ⟨Or.inr ⟨behind, Or.inl fixed⟩, Or.inl fixed⟩
    · have unwritten : r ∉ q'.defs := kept.resolve_left fixed
      have later : r ∈ out ∧ (r ∈ reserved ∨ r ∉ q.defs) :=
        ⟨behind, Or.inr fun written => unwritten (writes r written)⟩
      by_cases written : r ∈ p.defs
      · exact Or.inl ((covers r written).resolve_right unwritten)
      · exact Or.inr ⟨Or.inr later, Or.inr written⟩

end Needs

/-! ## Windows -/

/-- What has to be shown of a window for programs that the machine runs. -/
structure WindowRefits (v : View) (window repl rest : List Instr) : Prop where
  improves : ∀ places, Improves (Machine.meaning places) v.reserved
    (Liveness.liveIn v.reserved false v.liveOut rest) window repl
  nonempty : window ≠ []
  plain : ∀ p ∈ window, p.isPlain = true
  plain' : ∀ p ∈ repl, p.isPlain = true
  runs : ∀ p ∈ repl, Machine.Runs p

/-- Windows of plain commands decide nothing. -/
theorem Improves.of_plain {V M : Type} {I : Interpretation V M} {reserved out : FactSet Reg}
    {window repl : List Instr}
    (ends : ∀ s, AgreeOn I out (I.execAll window s) (I.execAll repl s))
    (live : ∀ r, r ∈ Liveness.liveIn reserved false out repl →
      r ∈ Liveness.liveIn reserved false out window)
    (plain : ∀ p ∈ window, p.isPlain = true) (plain' : ∀ p ∈ repl, p.isPlain = true) :
    Improves I reserved out window repl := by
  refine ⟨ends, fun here s => ?_, live⟩
  rw [Interpretation.leave_eq_none _ fun p member => Instr.isJump_of_isPlain (plain p member),
    Interpretation.leave_eq_none _ fun p member => Instr.isJump_of_isPlain (plain' p member)]

theorem WindowRefits.of_plain {window repl : List Instr}
    (ends : ∀ places s, AgreeOn (Machine.meaning places)
      (Liveness.liveIn v.reserved false v.liveOut rest)
      ((Machine.meaning places).execAll window s) ((Machine.meaning places).execAll repl s))
    (live : ∀ r, r ∈ Liveness.liveIn v.reserved false
        (Liveness.liveIn v.reserved false v.liveOut rest) repl →
      r ∈ Liveness.liveIn v.reserved false
        (Liveness.liveIn v.reserved false v.liveOut rest) window)
    (nonempty : window ≠ []) (plain : ∀ p ∈ window, p.isPlain = true)
    (plain' : ∀ p ∈ repl, p.isPlain = true) (runs : ∀ p ∈ repl, Machine.Runs p) :
    WindowRefits v window repl rest :=
  ⟨fun places => .of_plain (ends places) live plain plain', nonempty, plain, plain', runs⟩

theorem WindowRefits.refits {window repl : List Instr} (before : List Instr)
    (windowRefits : WindowRefits v window repl rest) :
    Refits v (before ++ window ++ rest) (before ++ repl ++ rest) := by
  intro runs
  refine ⟨fun places => ?_, ?_, ?_⟩
  · exact (windowRefits.improves places).inside before fun p member =>
      (runs p (List.mem_append_right _ member)).isKnown
  · exact .window before rest windowRefits.nonempty windowRefits.plain windowRefits.plain'
  · intro p member
    rcases List.mem_append.1 member with front | back
    · rcases List.mem_append.1 front with first | second
      · exact runs p (List.mem_append_left _ (List.mem_append_left _ first))
      · exact windowRefits.runs p second
    · exact runs p (List.mem_append_right _ back)

end Windows

end MipsFlow
