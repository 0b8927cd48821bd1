import MipsFlow.Proofs.Linking
import MipsFlow.Proofs.Execution

/-!
# Graphs that run alike

`RunsAlike` relates two pieces of code that do the same from a state, instruction by instruction:
each reads the same inputs, leads to the same state and takes the same decision. `Follows` relates
two graphs that differ in code only, and whose blocks run alike wherever a run of the first one
comes to them; then the two have the same runs (`Follows.visit_eq`).
-/

namespace MipsFlow

variable {V M : Type}

/-- From the state `s`, the two instructions have the same inputs, the same effect, and the same
decision if they jump. -/
structure InstrAlike (I : Interpretation V M) (p q : Instr) (s : MachineState V M) : Prop where
  inputs : q.command?.map (I.inputs · s) = p.command?.map (I.inputs · s)
  effect : I.execInstr q s = I.execInstr p s
  decision : ∀ here, I.decideInstr here q s = I.decideInstr here p s

/-- From the state `s`, the two pieces of code are alike instruction by instruction, and so pass
through the same states. -/
def RunsAlike (I : Interpretation V M) : List Instr → List Instr → MachineState V M → Prop
  | [], [], _ => True
  | p :: a, q :: b, s => InstrAlike I p q s ∧ RunsAlike I a b (I.execInstr p s)
  | _, _, _ => False

variable {I : Interpretation V M} {s : MachineState V M} {a b c d : List Instr} {p q : Instr}

theorem InstrAlike.refl (p : Instr) : InstrAlike I p p s := ⟨rfl, rfl, fun _ => rfl⟩

namespace RunsAlike

theorem refl : RunsAlike I a a s := by
  induction a generalizing s with
  | nil => trivial
  | cons p rest ih => exact ⟨.refl p, ih⟩

theorem trans (first : RunsAlike I a b s) (second : RunsAlike I b c s) : RunsAlike I a c s := by
  induction a generalizing b c s with
  | nil =>
    cases b with
    | nil => exact second
    | cons q rest => exact first.elim
  | cons p a ih =>
    cases b with
    | nil => exact first.elim
    | cons q b =>
      cases c with
      | nil => exact second.elim
      | cons r c =>
        obtain ⟨here, rest⟩ := first
        obtain ⟨here', rest'⟩ := second
        rw [here.effect] at rest'
        exact ⟨⟨here'.inputs.trans here.inputs, here'.effect.trans here.effect,
          fun place => (here'.decision place).trans (here.decision place)⟩, ih rest rest'⟩

theorem append (first : RunsAlike I a b s) (second : RunsAlike I c d (I.execAll a s)) :
    RunsAlike I (a ++ c) (b ++ d) s := by
  induction a generalizing b s with
  | nil =>
    cases b with
    | nil => exact second
    | cons q rest => exact first.elim
  | cons p a ih =>
    cases b with
    | nil => exact first.elim
    | cons q b => exact ⟨first.1, ih first.2 second⟩

/-- Code that runs alike passes through the same states. -/
theorem execAll_take (alike : RunsAlike I a b s) (i : Nat) :
    I.execAll (b.take i) s = I.execAll (a.take i) s := by
  induction a generalizing b s i with
  | nil =>
    cases b with
    | nil => rfl
    | cons q rest => exact alike.elim
  | cons p a ih =>
    cases b with
    | nil => exact alike.elim
    | cons q b =>
      cases i with
      | zero => rfl
      | succ i =>
        rw [List.take_succ_cons, List.take_succ_cons, Interpretation.execAll_cons,
          Interpretation.execAll_cons, alike.1.effect]
        exact ih alike.2 i

theorem length_eq (alike : RunsAlike I a b s) : a.length = b.length := by
  induction a generalizing b s with
  | nil =>
    cases b with
    | nil => rfl
    | cons q rest => exact alike.elim
  | cons p a ih =>
    cases b with
    | nil => exact alike.elim
    | cons q b => exact congrArg Nat.succ (ih alike.2)

theorem execAll_eq (alike : RunsAlike I a b s) : I.execAll b s = I.execAll a s := by
  have ends := alike.execAll_take a.length
  rwa [List.take_length, alike.length_eq, List.take_length] at ends

theorem leave_eq (alike : RunsAlike I a b s) (here : Nat) :
    I.leave here b s = I.leave here a s := by
  induction a generalizing b s with
  | nil =>
    cases b with
    | nil => rfl
    | cons q rest => exact alike.elim
  | cons p a ih =>
    cases b with
    | nil => exact alike.elim
    | cons q b =>
      rw [Interpretation.leave_cons, Interpretation.leave_cons, alike.1.effect, ih alike.2,
        alike.1.decision]

end RunsAlike

/-! ## Graphs -/

/-- The two graphs differ in the code of their blocks only. -/
def Graph.SameShape (g g' : Graph) : Prop :=
  ∀ id, (g'.block? id).map (fun b => { b with code := [] }) =
    (g.block? id).map fun b => { b with code := [] }

namespace Graph.SameShape

variable {g g' g'' : Graph} {id : Nat} {b : Block}

theorem refl (g : Graph) : g.SameShape g := fun _ => rfl

theorem trans (first : g.SameShape g') (second : g'.SameShape g'') : g.SameShape g'' :=
  fun id => (second id).trans (first id)

theorem setCode (code : List Instr) : g.SameShape (g.setCode id code) := by
  intro other
  rw [Graph.block?_setCode, Option.map_map]
  congr 1
  funext b
  simp only [Function.comp_apply]
  split <;> rfl

/-- Corresponding blocks differ in their code only. -/
theorem block? (same : g.SameShape g') (here : g.block? id = some b) :
    ∃ code, g'.block? id = some { b with code } := by
  have shape := same id
  rw [here] at shape
  obtain ⟨c, there, equal⟩ := Option.map_eq_some_iff.1 shape
  refine ⟨c.code, ?_⟩
  obtain ⟨bId, bCode, bSucc, bPred, bEntry, bUnresolved⟩ := b
  obtain ⟨cId, cCode, cSucc, cPred, cEntry, cUnresolved⟩ := c
  simp only [Block.mk.injEq, true_and] at equal
  obtain ⟨rfl, rfl, rfl, rfl, rfl⟩ := equal
  exact there

theorem block?_none (same : g.SameShape g') (missing : g.block? id = none) :
    g'.block? id = none := by
  have shape := same id
  rw [missing] at shape
  exact Option.map_eq_none_iff.1 shape

theorem symm (same : g.SameShape g') : g'.SameShape g := fun id => (same id).symm

theorem regular (same : g.SameShape g') (regular : g.Regular) : g'.Regular := by
  refine ⟨?_, ?_, ?_⟩
  · intro id b here
    obtain ⟨code, there⟩ := same.symm.block? here
    have place := regular.place there
    exact place
  · intro id next b here edge
    obtain ⟨code, there⟩ := same.symm.block? here
    obtain ⟨after, isAfter, back⟩ := regular.succ_pred there edge
    obtain ⟨code', isAfter'⟩ := same.block? isAfter
    exact ⟨_, isAfter', back⟩
  · intro id last b here edge
    obtain ⟨code, there⟩ := same.symm.block? here
    obtain ⟨before, isBefore, forth⟩ := regular.pred_succ there edge
    obtain ⟨code', isBefore'⟩ := same.block? isBefore
    exact ⟨_, isBefore', forth⟩

end Graph.SameShape

/-- The second graph differs from the first in code only, and its blocks run alike wherever the run
of the first one from the given place and state comes to them. -/
structure Follows (I : Interpretation V M) (start : Nat) (s : MachineState V M) (g g' : Graph) :
    Prop where
  shape : g.SameShape g'
  alike : ∀ {n id : Nat} {t : MachineState V M} {b b' : Block},
    I.visit g start s n = some (id, t) → g.block? id = some b → g'.block? id = some b' →
    RunsAlike I b.code b'.code t

namespace Follows

variable {start : Nat} {g g' : Graph}

theorem refl : Follows I start s g g := by
  refine ⟨.refl g, ?_⟩
  intro n id t b b' _ here there
  rw [here] at there
  cases there
  exact .refl

/-- A graph that follows another one has the same run. -/
theorem visit_eq (follows : Follows I start s g g') (n : Nat) :
    I.visit g' start s n = I.visit g start s n := by
  induction n with
  | zero => rfl
  | succ n ih =>
    unfold Interpretation.visit
    rw [ih]
    cases visited : I.visit g start s n with
    | none => rfl
    | some point =>
      obtain ⟨id, t⟩ := point
      simp only [Option.bind_some, Interpretation.hop]
      cases here : g.block? id with
      | none => rw [follows.shape.block?_none here]
      | some b =>
        obtain ⟨code, there⟩ := follows.shape.block? here
        have alike := follows.alike visited here there
        rw [there]
        simp only [Option.bind_some, Interpretation.next, alike.execAll_eq, alike.leave_eq]

/-- Exchanging the code of a block for code that runs alike wherever the run comes to it. -/
theorem setCode (follows : Follows I start s g g') {id : Nat} {b : Block} {code : List Instr}
    (here : g'.block? id = some b)
    (alike : ∀ (n : Nat) (t : MachineState V M), I.visit g start s n = some (id, t) →
      RunsAlike I b.code code t) : Follows I start s g (g'.setCode id code) := by
  refine ⟨follows.shape.trans (.setCode code), ?_⟩
  intro n other t original changed visited isOriginal isChanged
  rcases Graph.block?_setCode_cases here isChanged with ⟨rfl, rfl⟩ | ⟨-, same⟩
  · exact (follows.alike visited isOriginal here).trans (alike n t visited)
  · exact follows.alike visited isOriginal same

end Follows

end MipsFlow
