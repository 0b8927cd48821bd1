import MipsFlow.Proofs.Known
import MipsFlow.Proofs.Roles

/-!
# What foreign commands teach

Nothing is known about what a foreign command does. So all of memory is forgotten after it, and
every register that it names, and nothing new is known. There is one exception. A product with more
than two operands is foreign, but what it leaves in the multiplier is evaluated without asking for
that, from the first two operands: `after_foreign`.
-/

namespace MipsFlow

namespace Known

variable {k k' : Known} {c : Command} {q r : Reg} {v w : Word}

/-- What the first two operands of a product with further operands would leave in the multiplier. -/
def overlongProduct? (k : Known) (c : Command) : Option (Word × Word) :=
  match c.op?, c.args with
  | some op, x :: y :: _ :: _ =>
    if op = .mult ∨ op = .multu then
      (k.operand? x).bind fun x => (k.operand? y).bind (Word.multiplier? op x)
    else none
  | _, _ => none

/-! ## Looking up registers -/

theorem lookup_filter_key (keep : Reg → Bool) (regs : List (Reg × Word)) :
    (regs.filter fun pair => keep pair.1).lookup r = if keep r then regs.lookup r else none := by
  induction regs with
  | nil => simp
  | cons pair rest ih =>
    obtain ⟨q, v⟩ := pair
    rw [List.filter_cons]
    by_cases same : r = q
    · subst same
      cases kept : keep r <;> simp [kept, ih]
    · have differs : (r == q) = false := beq_eq_false_iff_ne.2 same
      cases kept : keep q <;> simp [List.lookup_cons, differs, ih]

theorem lookup_forget {rs : List Reg} :
    (k.forget rs).regs.lookup r = some w ↔ r ∉ rs ∧ k.regs.lookup r = some w := by
  have kept := lookup_filter_key (r := r) (fun q => !rs.contains q) k.regs
  rw [forget, kept]
  simp

theorem lookup_setReg (nonzero : q.isZero = false) : (k.setReg q v).regs.lookup r = some w ↔
    if r = q ∧ q ∉ k.fixed then w = v else k.regs.lookup r = some w := by
  unfold setReg
  rw [nonzero, Bool.false_or]
  by_cases fixed : q ∈ k.fixed
  · simp [fixed]
  · by_cases same : r = q
    · subst same
      have fresh : k.fixed.contains r = false := by rwa [← Bool.not_eq_true, FactSet.contains_iff]
      simp only [fresh, fixed, not_false_iff, and_self, if_true, Bool.false_eq_true, if_false,
        List.lookup_cons_self, Option.some.injEq]
      exact eq_comm
    · have differs : (r == q) = false := beq_eq_false_iff_ne.2 same
      simp [fixed, same, differs, List.lookup_cons]

theorem fixed_setReg : (k.setReg q v).fixed = k.fixed := by
  unfold setReg
  split <;> rfl

theorem cells_setReg : (k.setReg q v).cells = k.cells := by
  unfold setReg
  split <;> rfl

/-! ## Foreign commands -/

theorem not_divides_of_foreign (foreign : c.isForeign = true) : c.isMultiplierDivision = false := by
  by_contra divides
  rw [Bool.not_eq_false] at divides
  have shape := divides
  simp only [Command.isMultiplierDivision, Bool.and_eq_true, Bool.or_eq_true,
    decide_eq_true_eq] at shape
  obtain ⟨isOp, operands⟩ := shape
  have known : c.form?.isSome = true := by
    unfold Command.form?
    split at operands
    · next x y args => rcases isOp with isOp | isOp <;> simp [args, isOp] <;> rfl
    · next x y z args => simp [divides, args]
    · contradiction
  rw [Command.isForeign, Option.isNone_iff_eq_none] at foreign
  rw [foreign] at known
  contradiction

/-- A product of two operands is understood. -/
theorem not_two_of_foreign {op : Opcode} (foreign : c.isForeign = true) (isOp : c.op? = some op)
    (product : op = .mult ∨ op = .multu) : c.args.length ≠ 2 := by
  intro two
  rw [Command.isForeign, Command.form?_of_op isOp (not_divides_of_foreign foreign), two] at foreign
  rcases product with rfl | rfl <;> contradiction

/-- Of a foreign command only an overlong product is evaluated, unless the evaluation faults. -/
theorem multiplierResult_of_foreign {pair : Option (Word × Word)} (foreign : c.isForeign = true)
    (evaluated : k.multiplierResult c = .ok pair) : pair = k.overlongProduct? c := by
  unfold multiplierResult multiplierOperands at evaluated
  rw [not_divides_of_foreign foreign] at evaluated
  unfold overlongProduct?
  cases isOp : c.op? with
  | none => simpa [isOp] using evaluated.symm
  | some op =>
    by_cases product : op = .mult ∨ op = .multu
    · have operands := not_two_of_foreign foreign isOp product
      rcases args : c.args with _ | ⟨x, _ | ⟨y, _ | ⟨z, rest⟩⟩⟩
      · simp [isOp, product, args] at evaluated
      · cases first : k.operand? x <;> simp [isOp, product, args, first] at evaluated
        simpa [first] using evaluated.symm
      · simp [args] at operands
      · cases first : k.operand? x <;>
          simpa [isOp, product, args, first] using evaluated.symm
    · have none : pair = none := by simpa [isOp, product] using evaluated.symm
      rw [none]
      split
      · next isOp' _ =>
        obtain rfl := Option.some.inj isOp'
        rw [if_neg product]
      · rfl

/-- What is known after a foreign command: nothing about memory; and of registers, unless the
command is an overlong product of known operands, what was known before and is not named in the
command. After an overlong product its result is held to be in the multiplier as well. -/
theorem after_foreign (foreign : c.isForeign = true) (isAfter : k.after c = .ok k') :
    k'.cells = [] ∧ k'.fixed = k.fixed ∧
    (k.overlongProduct? c = none → ∀ r w, k'.regs.lookup r = some w ↔
      r ∉ c.clobbers ∧ k.regs.lookup r = some w) ∧
    ∀ hi lo, k.overlongProduct? c = some (hi, lo) → ∀ r w, k'.regs.lookup r = some w ↔
      if r = .lo ∧ .lo ∉ k.fixed then w = lo
      else if r = .hi ∧ .hi ∉ k.fixed then w = hi
      else r ∉ c.clobbers ∧ k.regs.lookup r = some w := by
  have stored : k.afterStore c = k.forgetMemory := by simp [afterStore, foreign]
  have unread : k.result? c = none := by simp [result?, foreign]
  have kept : ∀ r w, (k.forgetMemory.forget c.clobbers).regs.lookup r = some w ↔
      r ∉ c.clobbers ∧ k.regs.lookup r = some w := fun r w => lookup_forget
  unfold after at isAfter
  rw [stored, unread] at isAfter
  cases evaluated : k.multiplierResult c with
  | error fault => rw [evaluated] at isAfter; contradiction
  | ok pair =>
    rw [evaluated] at isAfter
    obtain rfl := multiplierResult_of_foreign foreign evaluated
    obtain rfl := Except.ok.inj isAfter
    cases product : k.overlongProduct? c with
    | none => exact ⟨rfl, rfl, fun _ => kept, fun hi lo some => by contradiction⟩
    | some values =>
      obtain ⟨high, low⟩ := values
      refine ⟨?_, ?_, fun none => by contradiction, fun hi lo same r w => ?_⟩
      · simp only [cells_setReg]
        rfl
      · simp only [fixed_setReg]
        rfl
      · obtain ⟨rfl, rfl⟩ := Prod.mk.inj (Option.some.inj same)
        dsimp only
        rw [lookup_setReg rfl, lookup_setReg rfl, kept, fixed_setReg]
        rfl

/-- An unknown mnemonic forgets the register that it names, and keeps another one. -/
theorem after_foreign_unknown :
    let k : Known :=
      { fixed := .empty
        regs := [(.general 8, 3), (.general 9, 4)]
        cells := [⟨.number 0, .general 29, 5⟩] }
    let c : Command := ⟨.unknown "frob", [.reg (.general 8)]⟩
    ∃ k', c.isForeign = true ∧ k.after c = .ok k' ∧ k'.cells = [] ∧
      k'.regs.lookup (.general 8) ≠ some 3 ∧ k'.regs.lookup (.general 9) = some 4 := by
  intro k c
  have foreign : c.isForeign = true := by decide
  obtain ⟨k', isAfter⟩ : ∃ k', k.after c = .ok k' := ⟨_, rfl⟩
  obtain ⟨cells, -, kept, -⟩ := after_foreign foreign isAfter
  refine ⟨k', foreign, isAfter, cells, ?_, ?_⟩
  · rw [ne_eq, kept rfl]
    decide
  · rw [kept rfl]
    decide

/-- After `mult $8,$9,$10` with known factors the low word of the multiplier is known. -/
theorem overlong_product_teaches :
    ¬ ∀ (k k' : Known) (c : Command), c.isForeign = true → k.after c = .ok k' →
      ∀ r w, k'.regs.lookup r = some w → r ∉ c.clobbers ∧ k.regs.lookup r = some w := by
  intro silent
  have learned := silent { fixed := .empty, regs := [(.general 8, 3), (.general 9, 4)] } _
    (.ofOpcode .mult [.reg (.general 8), .reg (.general 9), .reg (.general 10)]) (by decide) rfl
    .lo 12 (by decide)
  exact absurd learned (by decide)

end Known

end MipsFlow
