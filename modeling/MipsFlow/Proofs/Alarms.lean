import MipsFlow.Proofs.Rework
import MipsFlow.Proofs.RunsAlike

/-!
# Alarms

Some inputs of commands may give an alarm. An interpretation goes on behind it; `Raises` says that
there is one in some straight-line code, run from a state. Whether there is depends on no more of
the state than what is live before the code (`raises_of_agree`), and is the same for code that runs
alike (`RunsAlike.raises_iff`).
-/

namespace MipsFlow

namespace Interpretation

variable {V M : Type} (I : Interpretation V M) (alarm : Inputs V M → Prop)

/-- The instruction is a command, and its inputs give an alarm. -/
def Sounds (p : Instr) (s : MachineState V M) : Prop :=
  ∃ c, p.command? = some c ∧ alarm (I.inputs c s)

/-- The inputs of some command in the code, run from the state, give an alarm. -/
def Raises : List Instr → MachineState V M → Prop
  | [], _ => False
  | p :: rest, s => I.Sounds alarm p s ∨ Raises rest (I.execInstr p s)

variable {I alarm} {p q : Instr} {a b code window repl rest : List Instr} {s t : MachineState V M}
variable {reserved out : FactSet Reg}

@[simp] theorem not_raises_nil : ¬ I.Raises alarm [] s := id

@[simp] theorem raises_cons :
    I.Raises alarm (p :: rest) s ↔ I.Sounds alarm p s ∨ I.Raises alarm rest (I.execInstr p s) :=
  Iff.rfl

theorem raises_append : I.Raises alarm (a ++ b) s ↔
    I.Raises alarm a s ∨ I.Raises alarm b (I.execAll a s) := by
  induction a generalizing s with
  | nil => simp
  | cons p rest ih => rw [List.cons_append, raises_cons, raises_cons, ih, or_assoc, execAll_cons]

theorem sounds_of_command {c : Command} (command : p.command? = some c) :
    I.Sounds alarm p s ↔ alarm (I.inputs c s) := by
  simp [Sounds, command]

theorem not_sounds_of_none (noCommand : p.command? = none) : ¬ I.Sounds alarm p s := by
  simp [Sounds, noCommand]

theorem sounds_congr (same : p.content = q.content) : I.Sounds alarm p s ↔ I.Sounds alarm q s := by
  unfold Sounds
  rw [command?_congr same]

/-- Identities, comments and notes give no alarm. -/
theorem raises_congr (same : a.map Instr.content = b.map Instr.content) :
    I.Raises alarm a s ↔ I.Raises alarm b s := by
  replace same := forall₂_of_map_eq same
  induction same generalizing s with
  | nil => rfl
  | cons same _ ih =>
    simp only [raises_cons, sounds_congr same, I.execInstr_congr same, ih]

/-- States that agree on what is live before some code lead to the same alarms. -/
theorem raises_of_agree {unresolved : Bool} (known : ∀ p ∈ code, p.isKnown = true)
    (agree : AgreeOn I (Liveness.liveIn reserved unresolved out code) s t) :
    I.Raises alarm code s ↔ I.Raises alarm code t := by
  induction code generalizing s t with
  | nil => rfl
  | cons p rest ih =>
    obtain ⟨knownHere, knownRest⟩ := List.forall_mem_cons.1 known
    have here : I.Sounds alarm p s ↔ I.Sounds alarm p t :=
      exists_congr fun c => and_congr_right fun command => by
        rw [Liveness.inputs_of_agree command agree]
    rw [raises_cons, raises_cons, here, ih knownRest (Liveness.agree_execInstr knownHere agree).1]

/-- A window may be exchanged if the new one leads to a state that agrees on what is live behind it
with the one before, and raises the alarms that the old one raises. -/
theorem raises_inside (before : List Instr) (known : ∀ p ∈ rest, p.isKnown = true)
    (ends : ∀ s, AgreeOn I (Liveness.liveIn reserved false out rest)
      (I.execAll window s) (I.execAll repl s))
    (here : ∀ s, I.Raises alarm window s → I.Raises alarm repl s)
    (raises : I.Raises alarm (before ++ window ++ rest) s) :
    I.Raises alarm (before ++ repl ++ rest) s := by
  rw [raises_append, raises_append, execAll_append] at raises ⊢
  refine raises.imp (Or.imp_right (here _)) fun behind => ?_
  exact (raises_of_agree known (ends _)).1 behind

end Interpretation

open Interpretation

variable {V M : Type} {I : Interpretation V M} {alarm : Inputs V M → Prop} {p q : Instr}
variable {a b : List Instr} {s : MachineState V M}

theorem InstrAlike.sounds_iff (alike : InstrAlike I p q s) :
    I.Sounds alarm q s ↔ I.Sounds alarm p s := by
  have sounds : ∀ i : Instr, I.Sounds alarm i s ↔ ∃ x, i.command?.map (I.inputs · s) = some x ∧
      alarm x := by
    intro i
    simp [Sounds]
  rw [sounds, sounds, alike.inputs]

/-- Code that runs alike raises the same alarms. -/
theorem RunsAlike.raises_iff (alike : RunsAlike I a b s) :
    I.Raises alarm b s ↔ I.Raises alarm a s := by
  induction a generalizing b s with
  | nil =>
    cases b with
    | nil => rfl
    | cons q rest => exact alike.elim
  | cons p a ih =>
    cases b with
    | nil => exact alike.elim
    | cons q b =>
      rw [raises_cons, raises_cons, alike.1.sounds_iff, alike.1.effect, ih alike.2]

end MipsFlow
