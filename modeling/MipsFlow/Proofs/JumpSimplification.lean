import Mathlib.Data.List.Nodup
import MipsFlow.Optimizer.Jumps
import MipsFlow.Proofs.Control

/-!
# Jump optimization and control flow

`Simplifies` says what the pass does to a part of a program up to its end, and
`runFrom_simplifies` that it does no more. From there the two programs run in step (`Beside`), but
for the jumps: a branch that skipped a jump is not taken where it used to be, and goes where the
jump went where it used not to be, and a jump to a label right behind it comes to the same
instructions as no jump.

* `jumps_preserve_control_flow`: if no label is declared twice, the program shows the same as
  before, whatever its commands do, and it ends or does not end as before.
-/

namespace MipsFlow

namespace Jumps

open Machine (behind)
open Control (Point Move Executed Observed)

/-! ## Inverted branches -/

/-- The second command branches to the target if the first one does not branch. -/
def Inverts (target : String) (c c' : Command) : Prop :=
  ∃ op op', c.op? = some op ∧ op.inverse? = some op' ∧
    c' = .ofOpcode op' (c.args.dropLast ++ [.sym target])

theorem traits_of_inverse? {op op' : Opcode} (inverse : op.inverse? = some op') :
    op.traits = [.jump, .conditional] ∧ op'.traits = [.jump, .conditional] := by
  cases op <;> first | (cases inverse; exact ⟨rfl, rfl⟩) | contradiction

namespace Inverts

variable {target : String} {c c' : Command}

theorem isBranch (inverts : Inverts target c c') :
    (c.isBranch = true ∧ c.isCall = false) ∧ c'.isBranch = true ∧ c'.isCall = false := by
  obtain ⟨op, op', isOp, inverse, rfl⟩ := inverts
  obtain ⟨traits, traits'⟩ := traits_of_inverse? inverse
  have isOp' := Command.op?_ofOpcode op' (c.args.dropLast ++ [.sym target])
  simp [Command.isBranch, Command.isCall, Command.has_of_op? isOp, Command.has_of_op? isOp',
    Opcode.has, traits, traits']

theorem target? (inverts : Inverts target c c') : c'.target? = some target := by
  obtain ⟨op, op', isOp, inverse, rfl⟩ := inverts
  refine Command.target?_of_getLast? ?_ List.getLast?_concat
  rw [Command.isJump, Command.has_of_op? (Command.op?_ofOpcode _ _), Opcode.has,
    (traits_of_inverse? inverse).2]
  rfl

/-- Of the two branches one is taken. -/
theorem passes {S : Type*} {C : Control S} (opposed : C.Opposed) (inverts : Inverts target c c')
    {label : String} (isLabel : c.target? = some label) (s : S) :
    C.passes c' s = !C.passes c s := by
  obtain ⟨⟨branches, -⟩, branches', -⟩ := inverts.isBranch
  obtain ⟨op, op', isOp, inverse, rfl⟩ := inverts
  have isBranch : c = .ofOpcode op (c.args.dropLast ++ [.sym label]) := by
    have last := Command.getLast?_of_target? isLabel
    have whole : c.args.dropLast ++ [.sym label] = c.args := List.dropLast_append_getLast? _ last
    rw [whole]
    exact congrArg (Command.mk · c.args) (Command.op?_eq_some.1 isOp)
  have decides := opposed op op' inverse c.args.dropLast label target s
  rw [← isBranch] at decides
  simp [Control.passes, branches, branches', decides]

end Inverts

/-! ## The pass -/

/-- What the pass makes of a part of a program, up to its end. -/
inductive Simplifies : List Instr → List Instr → Prop
  | nil : Simplifies [] []
  | keep {p p' : Instr} {rest rest' : List Instr} : p'.bare = p.bare →
    Simplifies rest rest' → Simplifies (p :: rest) (p' :: rest')
  | invert {p q p' : Instr} {c d c' : Command} {label target : String}
    {after after' : List Instr} : p.command? = some c → q.command? = some d →
    p'.command? = some c' → Inverts target c c' → c.target? = some label →
    d.isPlainJump = true → d.target? = some target → LedBy label after →
    Simplifies after after' → Simplifies (p :: q :: after) (p' :: after')
  | skip {p : Instr} {c : Command} {label : String} {rest rest' : List Instr} :
    p.command? = some c → c.isCall = false → c.target? = some label →
    labelAhead label rest = true → Simplifies rest rest' → Simplifies (p :: rest) rest'

theorem inverted?_spec {p : Instr} {rest : List Instr} {c' : Command}
    (inverts : inverted? p rest = some c') :
    ∃ q after c d label target, rest = q :: after ∧ p.command? = some c ∧ q.command? = some d ∧
      Inverts target c c' ∧ c.target? = some label ∧ d.isPlainJump = true ∧
      d.target? = some target ∧ LedBy label after := by
  unfold inverted? at inverts
  split at inverts
  · next q after others =>
    simp only [Option.bind_eq_bind, Option.bind_eq_some_iff] at inverts
    obtain ⟨c, command, d, jump, op', ⟨op, isOp, isInverse⟩, label, isLabel, target, isTarget,
      isNew⟩ := inverts
    split at isNew
    · next conditions =>
      simp only [Bool.and_eq_true, decide_eq_true_eq] at conditions
      obtain ⟨⟨-, plainJump⟩, leads⟩ := conditions
      exact ⟨q, after :: others, c, d, label, target, rfl, command, jump,
        ⟨op, op', isOp, isInverse, (Option.some.inj isNew).symm⟩, isLabel, plainJump, isTarget,
        leads⟩
    · contradiction
  · contradiction

theorem skipsNothing_spec {p : Instr} {rest : List Instr} (skips : skipsNothing p rest = true) :
    ∃ c label, p.command? = some c ∧ c.isCall = false ∧ c.target? = some label ∧
      labelAhead label rest = true := by
  obtain ⟨isJump, ahead⟩ := Bool.and_eq_true_iff.1 skips
  obtain ⟨label, isTarget, isAhead⟩ := (Option.any_eq_true _ _).1 ahead
  obtain ⟨c, command, target⟩ := Option.bind_eq_some_iff.1 isTarget
  have noCall : c.isCall = false := by
    rw [Instr.isCommandWith_of_command command] at isJump
    simpa using (Bool.and_eq_true_iff.1 isJump).1
  exact ⟨c, label, command, noCall, target, isAhead⟩

section Recursion

variable {annotated : Bool} {next : Nat} {pending : List String} {p q : Instr}
  {rest after : List Instr}

/-- A branch over a jump becomes the opposite branch. -/
theorem runFrom_of_inverts {c : Command}
    (inverts : inverted? (p.annotate pending) (q :: after) = some c) :
    runFrom annotated next pending (p :: q :: after) =
      ⟨(((p.annotate pending).clone next).withCommand c).annotate (notes annotated
          [p.annotate pending, q] ("branch inverted: " ++ (p.annotate pending).text)) ::
          (runFrom annotated (next + 1) [] after).code,
        (runFrom annotated (next + 1) [] after).nextId, true⟩ := by
  rw [runFrom]
  simp only [inverts]

/-- A jump to the next instruction goes. -/
theorem runFrom_of_skips (noInverse : inverted? (p.annotate pending) rest = none)
    (skips : skipsNothing (p.annotate pending) rest = true) :
    runFrom annotated next pending (p :: rest) =
      { runFrom annotated next (notes annotated [p.annotate pending]
          ("jump to the next instruction removed: " ++ (p.annotate pending).text)) rest with
        changed := true } := by
  rw [runFrom, if_pos skips]
  simp [noInverse]

/-- Any other instruction stays. -/
theorem runFrom_of_stays (noInverse : inverted? (p.annotate pending) rest = none)
    (stays : skipsNothing (p.annotate pending) rest = false) :
    runFrom annotated next pending (p :: rest) =
      { runFrom annotated next [] rest with
        code := p.annotate pending :: (runFrom annotated next [] rest).code } := by
  rw [runFrom, if_neg (Bool.eq_false_iff.1 stays)]
  simp [noInverse]

/-- The pass goes on behind an inverted branch and its jump, behind a jump that hands on its notes,
and behind any other instruction. -/
@[elab_as_elim]
theorem runFrom_induction (annotated : Bool) {motive : Nat → List String → List Instr → Prop}
    (nil : ∀ next pending, motive next pending [])
    (inverts : ∀ next pending p q after c, inverted? (p.annotate pending) (q :: after) = some c →
      motive (next + 1) [] after → motive next pending (p :: q :: after))
    (skips : ∀ next pending p rest, inverted? (p.annotate pending) rest = none →
      skipsNothing (p.annotate pending) rest = true →
      motive next (notes annotated [p.annotate pending]
        ("jump to the next instruction removed: " ++ (p.annotate pending).text)) rest →
      motive next pending (p :: rest))
    (stays : ∀ next pending p rest, inverted? (p.annotate pending) rest = none →
      skipsNothing (p.annotate pending) rest = false →
      motive next [] rest → motive next pending (p :: rest))
    (next : Nat) (pending : List String) (code : List Instr) : motive next pending code := by
  -- an inverted branch takes the jump behind it along, so the induction is on the length
  induction size : code.length using Nat.strong_induction_on generalizing code next pending with
  | _ size ih =>
  cases code with
  | nil => exact nil next pending
  | cons p rest =>
    rw [List.length_cons] at size
    have further next pending := ih rest.length (by omega) next pending rest rfl
    cases inverse : inverted? (p.annotate pending) rest with
    | some c =>
      obtain ⟨q, after, -, -, -, -, rfl, -⟩ := inverted?_spec inverse
      rw [List.length_cons] at size
      exact inverts next pending p q after c inverse
        (ih after.length (by omega) (next + 1) [] after rfl)
    | none =>
      cases isSkipped : skipsNothing (p.annotate pending) rest with
      | true => exact skips next pending p rest inverse isSkipped (further next _)
      | false => exact stays next pending p rest inverse isSkipped (further next [])

end Recursion

/-- The pass does no more than `Simplifies` says. -/
theorem runFrom_simplifies (annotated : Bool) (next : Nat) (pending : List String)
    (code : List Instr) : Simplifies code (runFrom annotated next pending code).code := by
  induction next, pending, code using runFrom_induction annotated with
  | nil next pending => exact .nil
  | inverts next pending p q after c' inverts ih =>
    have same : (p.annotate pending).command? = p.command? :=
      Interpretation.command?_congr (p.content_annotate pending)
    obtain ⟨_, _, c, d, label, target, isRest, command, jump, isInverse, isLabel, plainJump,
      isTarget, leads⟩ := inverted?_spec inverts
    cases isRest
    rw [runFrom_of_inverts inverts]
    refine .invert (same ▸ command) jump ?_ isInverse isLabel plainJump isTarget leads ih
    exact Interpretation.command?_congr (Instr.content_annotate _ _)
  | skips next pending p rest noInverse skips ih =>
    rw [runFrom_of_skips noInverse skips]
    obtain ⟨c, label, command, noCall, target, ahead⟩ := skipsNothing_spec skips
    rw [Interpretation.command?_congr (p.content_annotate pending)] at command
    exact .skip command noCall target ahead ih
  | stays next pending p rest noInverse stays ih =>
    rw [runFrom_of_stays noInverse stays]
    exact .keep (p.bare_annotate pending) ih

/-! ## What is kept -/

theorem command?_of_isLabel {p : Instr} (isLabel : p.isLabel = true) : p.command? = none := by
  cases command : p.command? with
  | none => rfl
  | some c => simp [Instr.isLabel, Instr.label?_of_isCommand command] at isLabel

namespace Simplifies

variable {a a' : List Instr}

theorem declared_eq (simplifies : Simplifies a a') : Graph.declared a' = Graph.declared a := by
  unfold Graph.declared
  induction simplifies with
  | nil => rfl
  | keep same _ ih =>
    have sameLabel := Instr.label?_congr (Instr.content_of_bare same)
    rw [List.filterMap_cons, List.filterMap_cons, sameLabel, ih]
  | invert command jump command' _ _ _ _ _ _ ih =>
    rw [List.filterMap_cons_none (Instr.label?_of_isCommand command),
      List.filterMap_cons_none (Instr.label?_of_isCommand jump),
      List.filterMap_cons_none (Instr.label?_of_isCommand command'), ih]
  | skip command _ _ _ _ ih =>
    rw [List.filterMap_cons_none (Instr.label?_of_isCommand command), ih]

/-- The parts from a label on are simplified, too. -/
theorem behind (simplifies : Simplifies a a') (label : String) :
    Simplifies (behind label a) (behind label a') := by
  have passes : ∀ {p : Instr} {c : Command} (rest : List Instr), p.command? = some c →
      Machine.behind label (p :: rest) = Machine.behind label rest := by
    intro p c rest command
    refine List.dropWhile_cons_of_pos ?_
    simp [Instr.label?_of_isCommand command]
  induction simplifies with
  | nil => exact .nil
  | @keep p p' rest rest' same simplifies ih =>
    have sameLabel := Instr.label?_congr (Instr.content_of_bare same)
    by_cases isHere : p.label? = some label
    · have whole : ∀ {q : Instr} (rest : List Instr), q.label? = some label →
          Machine.behind label (q :: rest) = q :: rest := fun rest isLabel =>
        List.dropWhile_cons_of_neg (by simp [isLabel])
      rw [whole rest isHere, whole rest' (sameLabel.trans isHere)]
      exact .keep same simplifies
    · have later : ∀ {q : Instr} (rest : List Instr), q.label? ≠ some label →
          Machine.behind label (q :: rest) = Machine.behind label rest := fun rest isOther =>
        List.dropWhile_cons_of_pos (by simp [isOther])
      rw [later rest isHere, later rest' (sameLabel ▸ isHere)]
      exact ih
  | invert command jump command' _ _ _ _ _ _ ih =>
    rw [passes _ command, passes _ jump, passes _ command']
    exact ih
  | skip command _ _ _ _ ih =>
    rw [passes _ command]
    exact ih

theorem of_label {p : Instr} {rest : List Instr} (isLabel : p.isLabel = true)
    (simplifies : Simplifies (p :: rest) a') :
    ∃ p' rest', a' = p' :: rest' ∧ p'.isLabel = true ∧ Simplifies rest rest' := by
  have noCommand : ∀ c, p.command? ≠ some c := by simp [command?_of_isLabel isLabel]
  cases simplifies with
  | @keep _ p' _ rest' same simplifies =>
    refine ⟨p', rest', rfl, ?_, simplifies⟩
    rw [Instr.isLabel, Instr.label?_congr (Instr.content_of_bare same)]
    exact isLabel
  | invert command => exact (noCommand _ command).elim
  | skip command => exact (noCommand _ command).elim

/-- Labels at the front stay there. -/
theorem of_labels {front rest : List Instr} (isLabels : ∀ p ∈ front, p.isLabel = true)
    (simplifies : Simplifies (front ++ rest) a') :
    ∃ front' rest', a' = front' ++ rest' ∧ (∀ p ∈ front', p.isLabel = true) ∧
      Simplifies rest rest' := by
  induction front generalizing a' with
  | nil => exact ⟨[], a', rfl, by simp, simplifies⟩
  | cons p front ih =>
    obtain ⟨isLabel, others⟩ := List.forall_mem_cons.1 isLabels
    obtain ⟨p', tail, rfl, isLabel', simplifiesTail⟩ := of_label isLabel simplifies
    obtain ⟨front', rest', rfl, isLabels', simplifies'⟩ := ih others simplifiesTail
    exact ⟨p' :: front', rest', rfl, List.forall_mem_cons.2 ⟨isLabel', isLabels'⟩, simplifies'⟩

theorem behind_eq_nil_iff (simplifies : Simplifies a a') (label : String) :
    Machine.behind label a = [] ↔ Machine.behind label a' = [] := by
  rw [Control.behind_eq_nil, Control.behind_eq_nil, simplifies.declared_eq]

end Simplifies

theorem labelAhead_spec {label : String} {rest : List Instr}
    (ahead : labelAhead label rest = true) :
    ∃ front later, rest = front ++ later ∧ (∀ p ∈ front, p.isLabel = true) ∧ LedBy label later := by
  unfold labelAhead at ahead
  obtain ⟨p, member, isLabel⟩ := List.any_eq_true.1 ahead
  obtain ⟨front, back, isSplit⟩ := List.append_of_mem member
  have whole := List.takeWhile_append_dropWhile (p := Instr.isLabel) (l := rest)
  rw [isSplit, List.append_assoc] at whole
  refine ⟨front, _, whole.symm, fun q inside => ?_, ?_⟩
  · have isFront : q ∈ rest.takeWhile Instr.isLabel := by
      rw [isSplit]
      exact List.mem_append_left _ inside
    exact List.all_eq_true.1 List.all_takeWhile q isFront
  · simpa [LedBy] using isLabel

/-! ## Simulation -/

section Simulation

variable {S : Type*} {C : Control S} {code code' : List Instr}

/-- A part of the program to its end, and what the pass makes of it. -/
def Part (code r r' : List Instr) : Prop := r <:+ code ∧ Simplifies r r'

/-- The jump is not seen. -/
def Hidden (e : Executed S) : Prop := e.visible? = none

/-- The two programs have come to the same place: the new one may still be at labels before it, or
at an inverted branch that is the jump that the old one has come to. -/
inductive Beside (C : Control S) (code code' : List Instr) : Point S → Point S → Prop
  | near {ahead ahead' labels : List Instr} {pending pending' : List (List Instr)} (s : S) :
    (∀ i ∈ labels, i.isLabel = true) → Part code ahead ahead' →
    List.Forall₂ (Part code) pending pending' →
    Beside C code code' ⟨ahead, pending, s⟩ ⟨labels ++ ahead', pending', s⟩
  | facing {p p' : Point S} {label : String} {e e' : Executed S} :
    C.move code p = Control.jump code label e p → Hidden e →
    C.move code' p' = Control.jump code' label e' p' → Hidden e' →
    List.Forall₂ (Part code) p.pending p'.pending → p'.state = p.state → Beside C code code' p p'

/-- The two programs take the same step. -/
abbrev SameMove (C : Control S) (code code' : List Instr) : Move S → Move S → Prop :=
  Move.Alike Executed.visible? Eq (Beside C code code')

theorem Beside.here (s : S) {ahead ahead' : List Instr} {pending pending' : List (List Instr)}
    (part : Part code ahead ahead') (waiting : List.Forall₂ (Part code) pending pending') :
    Beside C code code' ⟨ahead, pending, s⟩ ⟨ahead', pending', s⟩ := by
  have noLabels : ∀ i ∈ ([] : List Instr), i.isLabel = true := by simp
  exact .near s noLabels part waiting

theorem jump_alike (whole : Simplifies code code') (label : String) {e e' : Executed S}
    (same : e'.visible? = e.visible?) {p p' : Point S}
    (waiting : List.Forall₂ (Part code) p.pending p'.pending) (state : p'.state = p.state) :
    SameMove C code code' (Control.jump code label e p) (Control.jump code' label e' p') := by
  have found := whole.behind_eq_nil_iff label
  unfold Control.jump
  by_cases missing : behind label code = []
  · rw [if_pos missing, if_pos (found.1 missing), state]
    exact .stop rfl
  · rw [if_neg missing, if_neg (missing ∘ found.2), state]
    exact .go same (.here _ ⟨List.dropWhile_suffix _, whole.behind label⟩ waiting)

theorem call_beside (whole : Simplifies code code') (c : Command) {ahead ahead' : List Instr}
    {pending pending' : List (List Instr)} (part : Part code ahead ahead')
    (waiting : List.Forall₂ (Part code) pending pending') (s : S) :
    Beside C code code' (C.call code c ⟨ahead, pending, s⟩)
      (C.call code' c ⟨ahead', pending', s⟩) := by
  have found := whole.behind_eq_nil_iff
  unfold Control.call
  split
  · next label isTarget =>
    simp only [Bool.and_eq_true, decide_eq_true_eq]
    by_cases enters : C.enters c s = true ∧ behind label code ≠ []
    · have enters' : C.enters c s = true ∧ behind label code' ≠ [] :=
        enters.imp_right fun isFound => isFound ∘ (found label).2
      rw [if_pos enters, if_pos enters']
      exact .here _ ⟨List.dropWhile_suffix _, whole.behind label⟩ (.cons part waiting)
    · have stays : ¬ (C.enters c s = true ∧ behind label code' ≠ []) := fun enters' =>
        enters (enters'.imp_right fun isFound => isFound ∘ (found label).1)
      rw [if_neg enters, if_neg stays]
      exact .here _ part waiting
  · exact .here _ part waiting

/-- A command does the same in both programs. -/
theorem obey_alike (whole : Simplifies code code') (id : Nat) (c : Command)
    {ahead ahead' : List Instr} {pending pending' : List (List Instr)}
    (part : Part code ahead ahead') (waiting : List.Forall₂ (Part code) pending pending') (s : S) :
    SameMove C code code' (C.obey code id c ⟨ahead, pending, s⟩)
      (C.obey code' id c ⟨ahead', pending', s⟩) := by
  unfold Control.obey
  split
  · cases waiting with
    | nil => exact .stop rfl
    | cons back others => exact .go rfl (.here _ back others)
  · split
    · exact .go rfl (call_beside whole c part waiting s)
    · split
      · simp only
        split
        · exact .go rfl (.here _ part waiting)
        · split
          · exact jump_alike whole _ rfl waiting rfl
          · exact .stop rfl
      · exact .go rfl (.here _ part waiting)

theorem keep_alike (whole : Simplifies code code') {i i' : Instr} (same : i'.bare = i.bare)
    {ahead ahead' : List Instr} (part : Part code ahead ahead')
    {pending pending' : List (List Instr)} (waiting : List.Forall₂ (Part code) pending pending')
    (s : S) :
    SameMove C code code' (C.move code ⟨i :: ahead, pending, s⟩)
      (C.move code' ⟨i' :: ahead', pending', s⟩) := by
  have sameCommand := Interpretation.command?_congr (Instr.content_of_bare same)
  cases command : i.command? with
  | none =>
    rw [Control.move_of_no_command command, Control.move_of_no_command (sameCommand.trans command)]
    exact .go rfl (.here _ part waiting)
  | some c =>
    rw [Control.move_of_command command, Control.move_of_command (sameCommand.trans command),
      Instr.id_of_bare same]
    exact obey_alike whole i.id c part waiting s

theorem hidden_of_target? {c : Command} {label : String} (noCall : c.isCall = false)
    (target : c.target? = some label) (id : Nat) (s : S) : Hidden (⟨id, c, s⟩ : Executed S) := by
  simp [Hidden, Executed.visible?, noCall, Command.isJump_of_target? target]

theorem passes_of_isPlainJump {c : Command} (plain : c.isPlainJump = true) (s : S) :
    c.isCall = false ∧ C.passes c s = false := by
  obtain ⟨isJump, -⟩ := Bool.and_eq_true_iff.1 plain
  rcases Bool.or_eq_true_iff.1 isJump with isOp | isOp
  all_goals
    have traits := Command.has_of_op? (of_decide_eq_true isOp)
    rw [Control.passes, Command.isBranch, Command.isCall, traits, traits]
    exact ⟨rfl, rfl⟩

/-- No target of a jump is declared twice. -/
def Unambiguous (code : List Instr) : Prop :=
  ∀ p ∈ code, ∀ c, p.command? = some c → ∀ label, c.target? = some label →
    (Graph.declared code).count label ≤ 1

/-- Where a branch was taken, both programs come to the label behind the jump that it skipped. Where
it was not, the old one comes to the jump, and the inverted branch is that jump. -/
theorem invert_together (opposed : C.Opposed) (unambiguous : Unambiguous code)
    {i j i' : Instr} {c d c' : Command} {label target : String}
    {after after' : List Instr} (suffix : i :: j :: after <:+ code) (command : i.command? = some c)
    (jump : j.command? = some d) (command' : i'.command? = some c') (inverts : Inverts target c c')
    (isLabel : c.target? = some label) (plain : d.isPlainJump = true)
    (isTarget : d.target? = some target) (leads : LedBy label after)
    (part : Simplifies after after') {pending pending' : List (List Instr)}
    (waiting : List.Forall₂ (Part code) pending pending') (s : S) :
    C.Together Executed.visible? Eq (Beside C code code') code code' ⟨i :: j :: after, pending, s⟩
      ⟨i' :: after', pending', s⟩ := by
  obtain ⟨member, suffix⟩ := Control.suffix_of_cons suffix
  obtain ⟨-, behindJump⟩ := Control.suffix_of_cons suffix
  obtain ⟨⟨-, noCall⟩, -, noCall'⟩ := inverts.isBranch
  have hidden := hidden_of_target? noCall isLabel i.id s
  have hidden' := hidden_of_target? noCall' inverts.target? i'.id s
  have moves : C.move code ⟨i :: j :: after, pending, s⟩ = _ :=
    (Control.move_of_command command).trans (Control.obey_of_target? noCall isLabel ..)
  have moves' : C.move code' ⟨i' :: after', pending', s⟩ = _ :=
    (Control.move_of_command command').trans (Control.obey_of_target? noCall' inverts.target? ..)
  rw [inverts.passes opposed isLabel] at moves'
  cases passes : C.passes c s with
  | false =>
    have once := unambiguous i member c command label isLabel
    rw [passes, if_neg Bool.false_ne_true, Control.jump_of_ledBy behindJump leads once] at moves
    rw [passes] at moves'
    refine .both ?_
    rw [moves, moves']
    exact .go (hidden'.trans hidden.symm) (.here _ ⟨behindJump, part⟩ waiting)
  | true =>
    rw [passes, if_pos rfl] at moves
    rw [passes] at moves'
    obtain ⟨noCall, goes⟩ := passes_of_isPlainJump (C := C) plain s
    have jumps : C.move code ⟨j :: after, pending, s⟩ = _ :=
      (Control.move_of_command jump).trans (Control.obey_of_target? noCall isTarget ..)
    rw [goes, if_neg Bool.false_ne_true] at jumps
    refine .first moves hidden (Nat.lt_succ_self _) ?_
    exact .facing jumps (hidden_of_target? noCall isTarget j.id s) moves' hidden' waiting rfl

/-- Where a jump went, the old program comes to a label ahead of the new one, or to the next
instruction. -/
theorem skip_together (unambiguous : Unambiguous code) {i : Instr} {c : Command} {label : String}
    {rest rest' : List Instr} (suffix : i :: rest <:+ code) (command : i.command? = some c)
    (noCall : c.isCall = false) (target : c.target? = some label)
    (ahead : labelAhead label rest = true) (part : Simplifies rest rest')
    {pending pending' : List (List Instr)} (waiting : List.Forall₂ (Part code) pending pending')
    (s : S) :
    C.Together Executed.visible? Eq (Beside C code code') code code' ⟨i :: rest, pending, s⟩
      ⟨rest', pending', s⟩ := by
  obtain ⟨member, later⟩ := Control.suffix_of_cons suffix
  have hidden := hidden_of_target? noCall target i.id s
  have moves : C.move code ⟨i :: rest, pending, s⟩ = _ :=
    (Control.move_of_command command).trans (Control.obey_of_target? noCall target ..)
  cases passes : C.passes c s with
  | true =>
    rw [passes, if_pos rfl] at moves
    exact .first moves hidden (Nat.lt_succ_self _) (.here _ ⟨later, part⟩ waiting)
  | false =>
    obtain ⟨front, found, rfl, isLabels, leads⟩ := labelAhead_spec ahead
    obtain ⟨front', found', rfl, isLabels', partFound⟩ := part.of_labels isLabels
    have suffixFound := (List.suffix_append front found).trans later
    have once := unambiguous i member c command label target
    rw [passes, if_neg Bool.false_ne_true, Control.jump_of_ledBy suffixFound leads once] at moves
    refine .first moves hidden ?_ (.near s isLabels' ⟨suffixFound, partFound⟩ waiting)
    simp only [List.length_cons, List.length_append]
    omega

/-- The two programs go on together. -/
theorem Beside.together (opposed : C.Opposed) (unambiguous : Unambiguous code)
    (whole : Simplifies code code') (p p' : Point S) (beside : Beside C code code' p p') :
    C.Together Executed.visible? Eq (Beside C code code') code code' p p' := by
  cases beside with
  | facing jumps hidden jumps' hidden' waiting state =>
    refine .both ?_
    rw [jumps, jumps']
    exact jump_alike whole _ (hidden'.trans hidden.symm) waiting state
  | @near ahead ahead' labels pending pending' s isLabels part waiting =>
    cases labels with
    | cons i labels =>
      obtain ⟨isLabel, others⟩ := List.forall_mem_cons.1 isLabels
      have moves : C.move code' ⟨i :: (labels ++ ahead'), pending', s⟩ = _ :=
        Control.move_of_no_command (command?_of_isLabel isLabel)
      exact .second moves rfl (Nat.lt_succ_self _) (.near s others part waiting)
    | nil =>
      obtain ⟨suffix, simplifies⟩ := part
      cases simplifies with
      | nil => exact .both (.stop rfl)
      | keep same rest =>
        obtain ⟨-, suffix⟩ := Control.suffix_of_cons suffix
        exact .both (keep_alike whole same ⟨suffix, rest⟩ waiting s)
      | invert command jump command' inverts isLabel plain isTarget leads after =>
        exact invert_together opposed unambiguous suffix command jump command' inverts isLabel plain
          isTarget leads after waiting s
      | skip command noCall target ahead rest =>
        exact skip_together unambiguous suffix command noCall target ahead rest waiting s

/-- The simplified program shows the same. -/
theorem Simplifies.shows_iff (opposed : C.Opposed) (unambiguous : Unambiguous code)
    (whole : Simplifies code code') (s : S) (o : Observed S) :
    C.Shows code (Control.start code s) o ↔ C.Shows code' (Control.start code' s) o := by
  have together := Beside.together opposed unambiguous whole
  have beside : Beside C code code' (Control.start code s) (Control.start code' s) :=
    .here s ⟨List.suffix_rfl, whole⟩ .nil
  constructor
  · rintro ⟨fuel, rfl⟩
    obtain ⟨fuel', alike⟩ := Control.alike_of_together together fuel _ _ beside
    exact ⟨fuel', alike.visible_eq⟩
  · rintro ⟨fuel', rfl⟩
    obtain ⟨fuel, alike⟩ := Control.alike_of_together' together fuel' _ _ beside
    exact ⟨fuel, alike.visible_eq.symm⟩

end Simulation

/-- Jump optimization preserves control flow. Whatever the commands of a program do and the branches
decide, if a branch and its opposite never decide alike and no label is declared twice, the
simplified program executes the same commands and calls in the same order and in the same states,
and ends in the same way or not at all, exactly as the program did. -/
theorem jumps_preserve_control_flow {S : Type*} (C : Control S) (opposed : C.Opposed)
    (code : List Instr) (labels : (Graph.declared code).Nodup) (annotated : Bool) (next : Nat)
    (s : S) :
    let code' := (run annotated next code).code
    (∀ o, C.Shows code (Control.start code s) o ↔ C.Shows code' (Control.start code' s) o) ∧
      (C.Diverges code (Control.start code s) ↔ C.Diverges code' (Control.start code' s)) := by
  intro code'
  have unambiguous : Unambiguous code := fun p _ c _ label _ =>
    List.nodup_iff_count_le_one.1 labels label
  have simplifies : Simplifies code code' := runFrom_simplifies annotated next [] code
  have same := simplifies.shows_iff opposed unambiguous s
  refine ⟨same, ?_⟩
  rw [Control.diverges_iff, Control.diverges_iff]
  exact forall_congr' fun o => imp_congr (same o) Iff.rfl

/-- A loop with a branch over a jump at its end, then a call of code in the program, and a jump to
the label behind it. The branch is inverted, both jumps go, and the run executes the loop twice, the
call and the code that it enters, and returns. -/
theorem jumps_preserve_control_flow_loop :
    let code : List Instr := [⟨1, .label "Loop", "", []⟩,
      .ofCommand 2 (.ofOpcode .addiu [.reg (.general 8), .reg (.general 8), .imm (-1)]),
      .ofCommand 3 (.ofOpcode .blez [.reg (.general 8), .sym "Done"]),
      .ofCommand 4 (.ofOpcode .b [.sym "Loop"]),
      ⟨5, .label "Done", "", []⟩,
      .ofCommand 6 (.ofOpcode .jal [.sym "Twice"]),
      .ofCommand 7 (.ofOpcode .j [.sym "End"]),
      ⟨8, .label "Stacked", "", []⟩,
      ⟨9, .label "End", "", []⟩,
      .ofCommand 10 (.ofOpcode .jr [.reg Reg.link]),
      ⟨11, .label "Twice", "", []⟩,
      .ofCommand 12 (.ofOpcode .addu [.reg (.general 2), .reg (.general 2), .reg (.general 2)]),
      .ofCommand 13 (.ofOpcode .jr [.reg Reg.link])]
    let code' := (run false 14 code).code
    let C : Control Machine.State := { Machine.control with enters := fun _ _ => true }
    let s : Machine.State := ⟨fun _ => 2, fun _ => 0⟩
    code'.map Instr.id = [1, 2, 14, 5, 6, 8, 9, 10, 11, 12, 13] ∧
      ∃ o, C.Shows code' (Control.start code' s) o ∧ o.executed.map (·.id) = [2, 2, 6, 12] ∧
        o.ending?.any (· matches .returned ⟨10, _, _⟩) = true := by
  intro code code' C s
  have opposed : C.Opposed := Machine.control_opposed
  have labels : (Graph.declared code).Nodup := by decide
  have same := (jumps_preserve_control_flow C opposed code labels false 14 s).1
  let o := (C.run code 20 (Control.start code s)).visible
  have executed : o.executed.map (·.id) = [2, 2, 6, 12] := by decide +kernel
  have returned : o.ending?.any (· matches .returned ⟨10, _, _⟩) = true := by decide +kernel
  exact ⟨by decide +kernel, o, (same o).1 ⟨20, rfl⟩, executed, returned⟩

end Jumps

end MipsFlow
