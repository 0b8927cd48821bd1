import MipsFlow.Proofs.Attempts.Commands
import MipsFlow.Proofs.Attempts.Cursors
import MipsFlow.Proofs.JumpSimplification
import MipsFlow.Proofs.PassDescent

/-!
# Simplifying jumps with a cursor

Jump optimization reads the whole program with a cursor, peeks at two instructions behind a branch,
and looks through the labels behind a jump. A branch is exchanged together with a jump that has been
seen. A jump that goes is followed by a label, which takes its notes over.
-/

namespace MipsFlow

namespace Attempt

variable {k : Cursor} {p : Instr} {annotated : Bool} {next : Nat}

/-- The branch that takes the place of the one just read. -/
def inverted? (k : Cursor) (p : Instr) : Attempt (Option Command) := do
  match p.command? with
  | none => return none
  | some c =>
    if !c.isBranch then return none
    else
      match c.op?.bind Opcode.inverse?, ← target? c with
      | some op, some label =>
        let ins ← peek k 2
        if ins.length ≠ 2 then return none
        else
          let q ← index ins 0
          let after ← index ins 1
          match q.command? with
          | none => return none
          | some d =>
            match ← target? d with
            | none => return none
            | some target =>
              if (← isPlainJump d) && after.label? = some label then
                let args ← store c.args (c.args.length - 1) (.sym target)
                return some ⟨.known op, args⟩
              else return none
      | _, _ => return none

/-- A command with a target has a last operand. -/
theorem store_target {c : Command} {label : String} (isTarget : c.target? = some label)
    (o : Operand) : store c.args (c.args.length - 1) o = pure (c.args.dropLast ++ [o]) := by
  have isLast := Command.getLast?_of_target? isTarget
  obtain ⟨front, isArgs⟩ : ∃ front, c.args = front ++ [.sym label] :=
    List.getLast?_eq_some_iff.1 isLast
  have inside : c.args.length - 1 < c.args.length := by
    rw [isArgs, List.length_append, List.length_singleton]
    omega
  rw [store_eq inside, isArgs]
  simp

theorem inverted?_eq (inside : k.pos ≤ k.code.length) (p : Instr) :
    inverted? k p = pure (Jumps.inverted? p k.behind) := by
  unfold inverted? Jumps.inverted?
  match behind : k.behind with
  | [] | [_] =>
    cases p.command? with
    | none => rfl
    | some c =>
      simp only [target?_eq, peek_eq inside, behind, pure_bind]
      cases c.isBranch <;> cases c.op?.bind Opcode.inverse? <;> cases c.target? <;> simp
  | q :: after :: more =>
    cases p.command? with
    | none => rfl
    | some c =>
      simp only [target?_eq, isPlainJump_eq, peek_eq inside, behind, pure_bind,
        List.take_succ_cons, List.take_zero, List.length_cons, List.length_nil, ne_eq,
        not_true_eq_false, if_false, index_first, index_second]
      cases q.command? with
      | none => cases c.isBranch <;> cases c.op?.bind Opcode.inverse? <;> cases c.target? <;> rfl
      | some d =>
        cases inverse : c.op?.bind Opcode.inverse? with
        | none => cases c.isBranch <;> simp [inverse]
        | some op =>
          cases isTarget : c.target? with
          | none => cases c.isBranch <;> simp [inverse, isTarget]
          | some label =>
            simp only [store_target isTarget, pure_bind, inverse, isTarget, Option.bind_eq_bind,
              Option.bind_some]
            cases d.target? with
            | none => cases c.isBranch <;> rfl
            | some target =>
              cases c.isBranch with
              | false => rfl
              | true => exact (apply_ite pure _ _ _).symm

/-- The jump just read leads to a label right behind it. -/
def skipsNothing (k : Cursor) (p : Instr) : Attempt Bool := do
  match p.command? with
  | none => return false
  | some c =>
    if !c.isJump || c.isCall then return false
    else
      match ← target? c with
      | none => return false
      | some label =>
        if !(← isPlainJump c) && !c.isBranch then return false
        else return Jumps.labelAhead label (← slice k.code k.pos k.code.length)

theorem skipsNothing_eq (inside : k.pos ≤ k.code.length) (p : Instr) :
    skipsNothing k p = pure (Jumps.skipsNothing p k.behind) := by
  unfold skipsNothing Jumps.skipsNothing Instr.isCommandWith Instr.target?
  cases p.command? with
  | none => rfl
  | some c =>
    simp only [target?_eq, isPlainJump_eq, slice_eq inside (Nat.le_refl _), List.take_length,
      pure_bind, Option.any_some, Option.bind_some]
    cases isTarget : c.target? with
    | none => cases c.isJump <;> cases c.isCall <;> simp
    | some label =>
      have jumps : c.isJump = true := by
        unfold Command.target? at isTarget
        split at isTarget
        · next jumps => exact jumps
        · contradiction
      rw [jumps]
      cases c.isCall <;> cases c.isPlainJump <;> cases c.isBranch <;> simp [Cursor.behind]

/-! ## The pass -/

/-- Reads the next instruction and simplifies it if it is a jump. -/
def simplifyNext (annotated : Bool) :
    Cursor × Nat × Bool → Attempt ((Cursor × Nat × Bool) ⊕ Jumps.Outcome) :=
  fun (k, next, changed) => do
    if k.atEnd then return .inr ⟨k.code, next, changed⟩
    else
      let (p, k) ← call k.read
      match ← inverted? k p with
      | some c =>
        let q ← index k.code k.pos
        let notes := Jumps.notes annotated [p, q] ("branch inverted: " ++ p.text)
        let k ← exchangeRead k 2 [((p.clone next).withCommand c).annotate notes]
        return .inl (k, next + 1, true)
      | none =>
        if ← skipsNothing k p then
          let notes :=
            Jumps.notes annotated [p] ("jump to the next instruction removed: " ++ p.text)
          let k ← exchangeRead k 1 []
          let heir ← index k.code k.pos
          let code ← store k.code k.pos (heir.annotate notes)
          return .inl ({ k with code }, next, true)
        else return .inl (k, next, changed)

/-- Simplifies the jumps of a program. -/
def jumps (annotated : Bool) (next : Nat) (code : List Instr) : Attempt Jumps.Outcome :=
  loop (simplifyNext annotated) (between annotated [] code false, next, false)

/-- The code whose first instruction has taken some notes over. -/
def handed (pending : List String) : List Instr → List Instr
  | [] => []
  | p :: rest => p.annotate pending :: rest

theorem handed_nil (code : List Instr) : handed [] code = code := by
  cases code <;> rfl

/-- A label is ahead only if there is something. -/
theorem ne_nil_of_skipsNothing {rest : List Instr} (skips : Jumps.skipsNothing p rest = true) :
    rest ≠ [] := by
  rintro rfl
  unfold Jumps.skipsNothing at skips
  cases target : p.target? <;> simp [target, Jumps.labelAhead] at skips

section Turns

variable (annotated : Bool) (done : List Instr) (fresh : Bool) (next : Nat) (changed : Bool)
variable {rest : List Instr}

/-- What the rules say about the instruction just read. -/
theorem rules_eq (p : Instr) (rest : List Instr) :
    inverted? (between annotated (done ++ [p]) rest true) p = pure (Jumps.inverted? p rest) ∧
      skipsNothing (between annotated (done ++ [p]) rest true) p =
        pure (Jumps.skipsNothing p rest) := by
  obtain ⟨behind, inside⟩ := behind_between annotated (done ++ [p]) rest true
  rw [inverted?_eq inside, skipsNothing_eq inside, behind]
  exact ⟨rfl, rfl⟩

/-- A branch over a jump is exchanged together with the jump. -/
theorem simplifyNext_inverts {q : Instr} {c : Command}
    (inverts : Jumps.inverted? p (q :: rest) = some c) :
    simplifyNext annotated (between annotated done (p :: q :: rest) fresh, next, changed) =
      pure (.inl (between annotated (done ++ [((p.clone next).withCommand c).annotate
        (Jumps.notes annotated [p, q] ("branch inverted: " ++ p.text))]) rest false,
        next + 1, true)) := by
  obtain ⟨more, reads⟩ := read_between annotated done p (q :: rest) fresh
  obtain ⟨inverse, -⟩ := rules_eq annotated done p (q :: rest)
  have window : 2 ≤ (p :: q :: rest).length := by simp
  simp only [simplifyNext, more, Bool.false_eq_true, if_false, reads, call_ok, pure_bind, inverse,
    inverts, index_between, exchangeRead_between window]
  rfl

/-- A jump to a label right behind it goes, and leaves its notes there. -/
theorem simplifyNext_skips {heir : Instr} (noInverse : Jumps.inverted? p (heir :: rest) = none)
    (skips : Jumps.skipsNothing p (heir :: rest) = true) :
    simplifyNext annotated (between annotated done (p :: heir :: rest) fresh, next, changed) =
      pure (.inl (between annotated done (handed (Jumps.notes annotated [p]
        ("jump to the next instruction removed: " ++ p.text)) (heir :: rest)) false,
        next, true)) := by
  obtain ⟨more, reads⟩ := read_between annotated done p (heir :: rest) fresh
  obtain ⟨inverse, skip⟩ := rules_eq annotated done p (heir :: rest)
  have window : 1 ≤ (p :: heir :: rest).length := by simp
  simp only [simplifyNext, more, Bool.false_eq_true, if_false, reads, call_ok, pure_bind, inverse,
    noInverse, skip, skips, if_true, exchangeRead_between window, List.append_nil,
    List.drop_succ_cons, List.drop_zero, index_between, store_between]
  simp [between, handed]

/-- Any other instruction is passed by. -/
theorem simplifyNext_stays (noInverse : Jumps.inverted? p rest = none)
    (stays : Jumps.skipsNothing p rest = false) :
    simplifyNext annotated (between annotated done (p :: rest) fresh, next, changed) =
      pure (.inl (between annotated (done ++ [p]) rest true, next, changed)) := by
  obtain ⟨more, reads⟩ := read_between annotated done p rest fresh
  obtain ⟨inverse, skip⟩ := rules_eq annotated done p rest
  simp only [simplifyNext, more, Bool.false_eq_true, if_false, reads, call_ok, pure_bind, inverse,
    noInverse, skip, stays]

end Turns

/-- Simplifying from a place on is simplifying what is there, whose first instruction has taken
over the notes of a jump that went. -/
theorem simplifyNext_from (annotated : Bool) (next : Nat) (pending : List String)
    (rest done : List Instr) (fresh changed : Bool) :
    loop (simplifyNext annotated)
        (between annotated done (handed pending rest) fresh, next, changed) =
      pure ⟨done ++ (Jumps.runFrom annotated next pending rest).code,
        (Jumps.runFrom annotated next pending rest).nextId,
        changed || (Jumps.runFrom annotated next pending rest).changed⟩ := by
  induction next, pending, rest using Jumps.runFrom_induction annotated
    generalizing done fresh changed with
  | nil next pending =>
    refine loop_done ?_
    simp only [simplifyNext, handed, atEnd_between, if_true]
    simp [between, Jumps.runFrom]
  | inverts next pending p q after c inverts ih =>
    have further := ih (done ++ [(((p.annotate pending).clone next).withCommand c).annotate
      (Jumps.notes annotated [p.annotate pending, q]
        ("branch inverted: " ++ (p.annotate pending).text))]) false true
    rw [handed_nil] at further
    rw [handed, loop_next (simplifyNext_inverts annotated done fresh next changed inverts), further,
      Jumps.runFrom_of_inverts inverts]
    simp
  | skips next pending p rest noInverse skips ih =>
    obtain ⟨heir, after, rfl⟩ := List.exists_cons_of_ne_nil (ne_nil_of_skipsNothing skips)
    rw [handed, loop_next (simplifyNext_skips annotated done fresh next changed noInverse skips),
      ih, Jumps.runFrom_of_skips noInverse skips]
    simp
  | stays next pending p rest noInverse stays ih =>
    have further := ih (done ++ [p.annotate pending]) true changed
    rw [handed_nil] at further
    rw [handed, loop_next (simplifyNext_stays annotated done fresh next changed noInverse stays),
      further, Jumps.runFrom_of_stays noInverse stays]
    simp

/-- Nothing goes wrong when jumps are simplified. -/
theorem jumps_eq (annotated : Bool) (next : Nat) (code : List Instr) :
    jumps annotated next code = pure (Jumps.run annotated next code) := by
  have all := simplifyNext_from annotated next [] code [] false false
  rw [handed_nil] at all
  rw [jumps, all]
  simp [Jumps.run]

end Attempt

end MipsFlow
