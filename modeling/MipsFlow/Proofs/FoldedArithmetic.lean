import Mathlib.Algebra.Order.Group.Unbundled.Abs
import MipsFlow.Optimizer.Folding
import MipsFlow.Proofs.Alu
import MipsFlow.Proofs.BlockPass
import MipsFlow.Proofs.Known
import MipsFlow.Proofs.OperandTexts

/-!
# What folded operations amount to

The optimizer calculates with bits. Here its results are given as numbers: those that a word stands
for when it is signed, `BitVec.toInt`, and when it is not, `BitVec.toNat`. `UnaryArithmetic`,
`BinaryArithmetic`, `ProductArithmetic` and `DivisionArithmetic` say operation by operation what the
result is, and when there is none. `folds_as_machine` proves it of commands whose operands are
known, and that the literal in the place of such a command is read back as the result.
-/

namespace MipsFlow

/-! ## Results as numbers -/

/-- The result is the number, and is missing if the number does not fit a signed word. -/
def IsExact (result : Option Word) (n : Int) : Prop :=
  (result.isSome = true ↔ -2 ^ 31 ≤ n ∧ n < 2 ^ 31) ∧ ∀ w ∈ result, w.toInt = n

/-- The result is the number modulo `2 ^ 32`, and never missing. -/
def IsModular (result : Option Word) (n : Int) : Prop :=
  ∃ w, result = some w ∧ (w.toNat : Int) = n % 2 ^ 32

/-- The result has in each place the bit that the bits of both words there give. -/
def IsBitwise (result : Option Word) (f : Bool → Bool → Bool) (x y : Word) : Prop :=
  ∃ w, result = some w ∧ ∀ i < 32, w.getLsbD i = f (x.getLsbD i) (y.getLsbD i)

/-- The result is one if the condition holds, and zero if it does not. -/
def IsTruth (result : Option Word) (condition : Prop) : Prop :=
  ∃ w, result = some w ∧ (condition → w = 1) ∧ (¬ condition → w = 0)

/-- Quotient and remainder of a division that rounds toward zero. -/
structure IsDivision (x y q r : Int) : Prop where
  quotient : q = x.tdiv y
  remainder : x = q * y + r
  small : |r| < |y|
  sign : r = 0 ∨ r.sign = x.sign

/-- There is a signed quotient, and it fits a word. -/
def HasQuotient (x y : Word) : Prop := y.toInt ≠ 0 ∧ ¬ (x.toInt = -2 ^ 31 ∧ y.toInt = -1)

/-- The operations on one word. -/
structure UnaryArithmetic (result : Opcode → Option Word) (x : Word) : Prop where
  neg_isSome : (result .neg).isSome = true ↔ x.toInt ≠ -2 ^ 31
  neg : ∀ w ∈ result .neg, w.toInt = -x.toInt
  negu : IsModular (result .negu) (-x.toInt)
  not : IsBitwise (result .not) (fun a _ => !a) x x

/-- The operations on two words. -/
structure BinaryArithmetic (result : Opcode → Option Word) (x y : Word) : Prop where
  add : ∀ op ∈ [Opcode.add, .addi], IsExact (result op) (x.toInt + y.toInt)
  sub : IsExact (result .sub) (x.toInt - y.toInt)
  addu : ∀ op ∈ [Opcode.addu, .addiu], IsModular (result op) (x.toInt + y.toInt)
  subu : IsModular (result .subu) (x.toInt - y.toInt)
  mul : IsModular (result .mul) (x.toInt * y.toInt)
  and : ∀ op ∈ [Opcode.and, .andi], IsBitwise (result op) (· && ·) x y
  or : ∀ op ∈ [Opcode.or, .ori], IsBitwise (result op) (· || ·) x y
  xor : ∀ op ∈ [Opcode.xor, .xori], IsBitwise (result op) (· ^^ ·) x y
  nor : IsBitwise (result .nor) (fun a b => !(a || b)) x y
  slt : ∀ op ∈ [Opcode.slt, .slti], IsTruth (result op) (x.toInt < y.toInt)
  sltu : ∀ op ∈ [Opcode.sltu, .sltiu], IsTruth (result op) (x.toNat < y.toNat)
  sll : ∀ op ∈ [Opcode.sll, .sllv], IsModular (result op) (x.toNat * 2 ^ (y.toNat % 32))
  srl : ∀ op ∈ [Opcode.srl, .srlv], IsModular (result op) (x.toNat / 2 ^ (y.toNat % 32))
  /-- The quotient is rounded down. -/
  sra : ∀ op ∈ [Opcode.sra, .srav],
    ∃ w, result op = some w ∧ w.toInt = x.toInt.fdiv (2 ^ (y.toNat % 32))
  div_isSome : ∀ op ∈ [Opcode.div, .rem], (result op).isSome = true ↔ HasQuotient x y
  div : ∀ q ∈ result .div, ∀ r ∈ result .rem, IsDivision x.toInt y.toInt q.toInt r.toInt
  divu_isSome : ∀ op ∈ [Opcode.divu, .remu], (result op).isSome = true ↔ y.toNat ≠ 0
  divu : ∀ q ∈ result .divu, ∀ r ∈ result .remu, IsDivision x.toNat y.toNat q.toNat r.toNat

/-- The products, with the high word first. -/
structure ProductArithmetic (result : Opcode → Option (Word × Word)) (x y : Word) : Prop where
  mult : ∃ hi lo, result .mult = some (hi, lo) ∧ hi.toInt * 2 ^ 32 + lo.toNat = x.toInt * y.toInt
  multu : ∃ hi lo, result .multu = some (hi, lo) ∧ hi.toNat * 2 ^ 32 + lo.toNat = x.toNat * y.toNat

/-- The divisions into the multiplier, with the remainder first. -/
structure DivisionArithmetic (result : Opcode → Option (Word × Word)) (x y : Word) : Prop where
  div_isSome : (result .div).isSome = true ↔ HasQuotient x y
  div : ∀ r q, result .div = some (r, q) → IsDivision x.toInt y.toInt q.toInt r.toInt
  divu_isSome : (result .divu).isSome = true ↔ y.toNat ≠ 0
  divu : ∀ r q, result .divu = some (r, q) → IsDivision x.toNat y.toNat q.toNat r.toNat

/-! ## Words and numbers -/

section Numbers

variable {x y : Word}

/-- A number that has to fit a signed word is the result if it does. -/
theorem isExact_ofInt? (n : Int) : IsExact (Word.ofInt? n) n := by
  rw [← Alu.word?_signed, Alu.signed]
  by_cases fits : -2 ^ 31 ≤ n ∧ n < 2 ^ 31
  · rw [if_pos fits]
    refine ⟨iff_of_true rfl fits, fun w result => ?_⟩
    obtain rfl := Option.some.inj result
    rw [BitVec.toInt_ofInt]
    exact Int.bmod_eq_of_le (by omega) (by omega)
  · rw [if_neg fits]
    exact ⟨iff_of_false Bool.false_ne_true fits, fun w result => by contradiction⟩

theorem isModular_of_ofInt {n : Int} {w : Word} (same : BitVec.ofInt 32 n = w) :
    IsModular (some w) n := by
  refine ⟨w, rfl, ?_⟩
  rw [← same, BitVec.toNat_ofInt]
  omega

theorem isModular_of_ofNat {n : Nat} {w : Word} (same : BitVec.ofNat 32 n = w) :
    IsModular (some w) n :=
  isModular_of_ofInt ((BitVec.ofInt_natCast ..).trans same)

theorem isTruth_ofBool {condition : Prop} {b : Bool} (same : b = true ↔ condition) :
    IsTruth (some (Word.ofBool b)) condition := by
  refine ⟨_, rfl, fun holds => ?_, fun fails => ?_⟩
  · rw [same.2 holds]
    rfl
  · rw [Bool.eq_false_iff.2 fun isTrue => fails (same.1 isTrue)]
    rfl

/-- Rounding down keeps a number in the range of words. -/
theorem toInt_sshiftRight_eq_fdiv (n : Nat) : (x.sshiftRight n).toInt = x.toInt.fdiv (2 ^ n) := by
  have positive : (0 : Int) ≤ 2 ^ n := Int.pow_nonneg (by decide)
  rw [BitVec.toInt_sshiftRight, Int.shiftRight_eq_div_pow, Int.fdiv_eq_ediv_of_nonneg _ positive,
    Int.natCast_pow]
  rfl

section Guards

variable {α : Type} {undefined : Prop} [Decidable undefined] {a b : α}

theorem isSome_unless : (if undefined then none else some a).isSome = true ↔ ¬ undefined := by
  by_cases undefined <;> simp [*]

theorem eq_of_unless (result : (if undefined then none else some a) = some b) :
    ¬ undefined ∧ a = b := by
  by_cases undefined <;> simp_all

end Guards

theorem hasQuotient_iff : HasQuotient x y ↔ ¬ (y = 0 ∨ Word.divisionOverflows x y = true) := by
  rw [← Alu.noQuotient_iff, Alu.NoQuotient, HasQuotient, not_or]

theorem isDivision_tdiv (m : Int) {n : Int} (nonzero : n ≠ 0) :
    IsDivision m n (m.tdiv n) (m.tmod n) where
  quotient := rfl
  remainder := (Int.tdiv_mul_add_tmod m n).symm
  small := by
    rw [Int.abs_eq_natAbs, Int.abs_eq_natAbs, Int.natAbs_tmod]
    exact_mod_cast Nat.mod_lt _ (Int.natAbs_pos.2 nonzero)
  sign := by
    by_cases divides : n ∣ m
    · exact Or.inl (Int.tmod_eq_zero_of_dvd divides)
    · exact Or.inr ((Int.sign_tmod m n).trans (if_neg divides))

/-- A signed quotient fits a word, unless it is that of the least word by minus one. -/
theorem isDivision_signed (defined : HasQuotient x y) :
    IsDivision x.toInt y.toInt (x.sdiv y).toInt (x.srem y).toInt := by
  have fits : x ≠ BitVec.intMin 32 ∨ y ≠ -1 := by
    by_contra both
    simp only [not_or, not_not] at both
    exact defined.2 ⟨congrArg BitVec.toInt both.1, congrArg BitVec.toInt both.2⟩
  rw [BitVec.toInt_sdiv_of_ne_or_ne x y fits, BitVec.toInt_srem]
  exact isDivision_tdiv x.toInt defined.1

theorem isDivision_unsigned (nonzero : y.toNat ≠ 0) :
    IsDivision x.toNat y.toNat (x / y).toNat (x % y).toNat := by
  rw [BitVec.toNat_udiv, BitVec.toNat_umod, Int.natCast_ediv, Int.natCast_emod,
    ← Int.tdiv_eq_ediv_of_nonneg (Int.natCast_nonneg _),
    ← Int.tmod_eq_emod_of_nonneg (Int.natCast_nonneg _)]
  exact isDivision_tdiv _ (by exact_mod_cast nonzero)

/-- A number that fits a double word is made up of its halves, with the high one signed. -/
theorem halves_signed {n : Int} (low : -2 ^ 63 ≤ n) (high : n < 2 ^ 63) :
    (Alu.halves n).1.toInt * 2 ^ 32 + (Alu.halves n).2.toNat = n := by
  have first : (Alu.halves n).1.toInt = n / 2 ^ 32 := by
    rw [Alu.halves, BitVec.toInt_ofInt]
    exact Int.bmod_eq_of_le (by omega) (by omega)
  have second : ((Alu.halves n).2.toNat : Int) = n % 2 ^ 32 := by
    rw [Alu.halves, BitVec.toNat_ofInt]
    omega
  rw [first, second]
  omega

theorem halves_unsigned {n : Nat} (high : n < 2 ^ 64) :
    (Alu.halves n).1.toNat * 2 ^ 32 + (Alu.halves n).2.toNat = n := by
  have first : (Alu.halves n).1.toNat = n / 2 ^ 32 := by
    rw [Alu.halves, BitVec.toNat_ofInt]
    omega
  have second : (Alu.halves n).2.toNat = n % 2 ^ 32 := by
    rw [Alu.halves, BitVec.toNat_ofInt]
    omega
  rw [first, second]
  omega

end Numbers

/-! ## The tables of operations -/

theorem unaryArithmetic (x : Word) : UnaryArithmetic (Word.unary? · x) x := by
  have exact : IsExact (Word.unary? .neg x) (-x.toInt) := by
    have result : Word.unary? .neg x = Word.ofInt? (-x.toInt) := by
      rw [← Alu.word?_signed, Alu.word?_signed_neg]
      rfl
    exact result ▸ isExact_ofInt? _
  have low := x.le_toInt
  have high := x.toInt_lt
  exact {
    neg_isSome := exact.1.trans (by omega)
    neg := exact.2
    negu := isModular_of_ofInt (Alu.ofInt_neg x)
    not := ⟨~~~x, rfl, fun i inside => by simp [inside]⟩ }

theorem forall_mem_pair {P : Opcode → Prop} {op op' : Opcode} (first : P op) (second : P op') :
    ∀ o ∈ [op, op'], P o := by
  simp [first, second]

theorem binaryArithmetic (x y : Word) : BinaryArithmetic (Word.binary? · x y) x y where
  add := forall_mem_pair (isExact_ofInt? _) (isExact_ofInt? _)
  sub := isExact_ofInt? _
  addu :=
    have sum : IsModular (some (x + y)) (x.toInt + y.toInt) :=
      isModular_of_ofInt (Alu.ofInt_add x y)
    forall_mem_pair sum sum
  subu := isModular_of_ofInt (Alu.ofInt_sub x y)
  mul := isModular_of_ofInt (Alu.ofInt_mul x y)
  and :=
    have bits : IsBitwise (some (x &&& y)) (· && ·) x y := ⟨_, rfl, fun i _ => BitVec.getLsbD_and⟩
    forall_mem_pair bits bits
  or :=
    have bits : IsBitwise (some (x ||| y)) (· || ·) x y := ⟨_, rfl, fun i _ => BitVec.getLsbD_or⟩
    forall_mem_pair bits bits
  xor :=
    have bits : IsBitwise (some (x ^^^ y)) (· ^^ ·) x y := ⟨_, rfl, fun i _ => BitVec.getLsbD_xor⟩
    forall_mem_pair bits bits
  nor := ⟨_, rfl, fun i inside => by simp [inside]⟩
  slt :=
    have less : IsTruth (some (Word.ofBool (x.slt y))) (x.toInt < y.toInt) :=
      isTruth_ofBool (by simp [BitVec.slt])
    forall_mem_pair less less
  sltu :=
    have less : IsTruth (some (Word.ofBool (x.ult y))) (x.toNat < y.toNat) :=
      isTruth_ofBool (by simp [BitVec.ult])
    forall_mem_pair less less
  sll :=
    have shifted : IsModular (some (x <<< (y.toNat % 32))) (x.toNat * 2 ^ (y.toNat % 32)) := by
      exact_mod_cast isModular_of_ofNat (Alu.ofNat_mul_pow x (y.toNat % 32))
    forall_mem_pair shifted shifted
  srl :=
    have shifted : IsModular (some (x >>> (y.toNat % 32))) (x.toNat / 2 ^ (y.toNat % 32)) := by
      exact_mod_cast isModular_of_ofNat (Alu.ofNat_div_pow x (y.toNat % 32))
    forall_mem_pair shifted shifted
  sra :=
    have shifted : ∃ w, some (x.sshiftRight (y.toNat % 32)) = some w ∧
        w.toInt = x.toInt.fdiv (2 ^ (y.toNat % 32)) := ⟨_, rfl, toInt_sshiftRight_eq_fdiv _⟩
    forall_mem_pair shifted shifted
  div_isSome := forall_mem_pair (isSome_unless.trans hasQuotient_iff.symm)
    (isSome_unless.trans hasQuotient_iff.symm)
  div q quotient r remainder := by
    obtain ⟨defined, rfl⟩ := eq_of_unless quotient
    obtain ⟨-, rfl⟩ := eq_of_unless remainder
    exact isDivision_signed (hasQuotient_iff.2 defined)
  divu_isSome :=
    have nonzero : ¬ y = 0 ↔ y.toNat ≠ 0 := (not_congr (Alu.toNat_eq_zero y)).symm
    forall_mem_pair (isSome_unless.trans nonzero) (isSome_unless.trans nonzero)
  divu q quotient r remainder := by
    obtain ⟨nonzero, rfl⟩ := eq_of_unless quotient
    obtain ⟨-, rfl⟩ := eq_of_unless remainder
    exact isDivision_unsigned (mt (Alu.toNat_eq_zero y).1 nonzero)

theorem productArithmetic (x y : Word) : ProductArithmetic (Word.multiplier? · x y) x y where
  mult := by
    have low := x.le_toInt
    have high := x.toInt_lt
    have low' := y.le_toInt
    have high' := y.toInt_lt
    have magnitude : (x.toInt * y.toInt).natAbs ≤ 2 ^ 31 * 2 ^ 31 := by
      rw [Int.natAbs_mul]
      exact Nat.mul_le_mul (by omega) (by omega)
    exact ⟨_, _, Alu.multiplier?_eq .mult x y, halves_signed (by omega) (by omega)⟩
  multu := by
    have high : x.toNat * y.toNat < 2 ^ 32 * 2 ^ 32 := Nat.mul_lt_mul'' x.isLt y.isLt
    refine ⟨_, _, Alu.multiplier?_eq .multu x y, ?_⟩
    exact_mod_cast halves_unsigned high

theorem divisionArithmetic (x y : Word) : DivisionArithmetic (Word.multiplier? · x y) x y where
  div_isSome := isSome_unless.trans hasQuotient_iff.symm
  div r q result := by
    obtain ⟨defined, pair⟩ := eq_of_unless result
    obtain ⟨rfl, rfl⟩ := Prod.mk.inj pair
    exact isDivision_signed (hasQuotient_iff.2 defined)
  divu_isSome := isSome_unless.trans (not_congr (Alu.toNat_eq_zero y)).symm
  divu r q result := by
    obtain ⟨nonzero, pair⟩ := eq_of_unless result
    obtain ⟨rfl, rfl⟩ := Prod.mk.inj pair
    exact isDivision_unsigned (mt (Alu.toNat_eq_zero y).1 nonzero)

/-! ## Commands with known operands -/

namespace Known

variable {k : Known} {d : Reg} {ox oy : Operand} {x y : Word}

theorem result?_unary (known : k.operand? ox = some x) {op : Opcode}
    (folds : op ∈ [Opcode.neg, .negu, .not]) :
    k.result? (.ofOpcode op [.reg d, ox]) = Word.unary? op x := by
  simp only [List.mem_cons, List.not_mem_nil, or_false] at folds
  rcases folds with rfl | rfl | rfl <;> exact congrArg (Option.bind · _) known

/-- Operations on two words are understood with three operands. -/
theorem form_of_binary? (op : Opcode) :
    (op.family.form? 3).isSome = true ∨ ∀ x y, Word.binary? op x y = none := by
  cases op <;> first | exact Or.inl rfl | exact Or.inr fun _ _ => rfl

theorem result?_binary (nonzero : d.isZero = false) (first : k.operand? ox = some x)
    (second : k.operand? oy = some y) (op : Opcode) :
    k.result? (.ofOpcode op [.reg d, ox, oy]) = Word.binary? op x y := by
  have plain : (Command.ofOpcode op [.reg d, ox, oy]).isMultiplierDivision = false := by
    have other : (Operand.reg d).isReg Reg.zero = false := by
      simpa [Operand.isReg, Operand.reg?, Reg.isZero] using nonzero
    simp [Command.isMultiplierDivision, Command.ofOpcode, other]
  cases foreign : (Command.ofOpcode op [.reg d, ox, oy]).isForeign with
  | true =>
    have noForm : (op.family.form? 3).isSome = false := by
      rw [Command.isForeign, Command.form?_ofOpcode nonzero] at foreign
      simpa using foreign
    have unfolded := (form_of_binary? op).resolve_left (by simp [noForm])
    rw [result?, foreign, unfolded]
    rfl
  | false =>
    rw [result?, foreign, plain]
    cases op <;> simp [Command.ofOpcode, Command.op?, Mnemonic.op?, first, second]

theorem multiplierResult_two (first : k.operand? ox = some x) (second : k.operand? oy = some y)
    (op : Opcode) :
    k.multiplierResult (.ofOpcode op [ox, oy]) = .ok (Word.multiplier? op x y) := by
  cases op <;> simp [multiplierResult, multiplierOperands, Command.isMultiplierDivision,
    Command.ofOpcode, Command.op?, Mnemonic.op?, first, second, Word.multiplier?]

theorem multiplierResult_three (first : k.operand? ox = some x) (second : k.operand? oy = some y)
    {op : Opcode} (divides : op ∈ [Opcode.div, .divu]) :
    k.multiplierResult (.ofOpcode op [.reg Reg.zero, ox, oy]) = .ok (Word.multiplier? op x y) := by
  simp only [List.mem_cons, List.not_mem_nil, or_false] at divides
  rcases divides with rfl | rfl <;>
    simp [multiplierResult, multiplierOperands, Command.isMultiplierDivision, Command.ofOpcode,
      Command.op?, Mnemonic.op?, Operand.isReg, Operand.reg?, first, second]

/-- What a command is folded to is a literal, and its text is read back as the literal for the same
word. -/
theorem literal_reads_back {v : View} {p : Instr} {c : Command} {rest : List Operand} {w : Word}
    (foldable : Folding.isFoldable v c = true) (args : c.args = .reg d :: rest)
    (result : k.result? c = some w) (next : Nat) :
    ∃ o, (Folding.fold v k next p c).instr.command? = some (.ofOpcode .li [.reg d, o]) ∧
      Operand.ofText o.text = .ok o ∧ ∀ k' : Known, k'.operand? o = some w := by
  refine ⟨.imm w.toImm, ?_, Operand.Legible.ofText trivial, fun k' => ?_⟩
  · rw [Folding.fold, foldable, result, args]
    simp [Command.loadImm]
  · exact congrArg some (Word.ofImm_toImm w)

/-- Where the operands of an operation are known to be `x` and `y`, the optimizer has the result of
the machine, and none where the machine has none. A command with a result becomes a literal that is
read back as that result. -/
theorem folds_as_machine (nonzero : d.isZero = false) (first : k.operand? ox = some x)
    (second : k.operand? oy = some y) :
    UnaryArithmetic (fun op => k.result? (.ofOpcode op [.reg d, ox])) x ∧
    BinaryArithmetic (fun op => k.result? (.ofOpcode op [.reg d, ox, oy])) x y ∧
    (∃ result, ProductArithmetic result x y ∧ DivisionArithmetic result x y ∧
      (∀ op, k.multiplierResult (.ofOpcode op [ox, oy]) = .ok (result op)) ∧
      ∀ op ∈ [Opcode.div, .divu],
        k.multiplierResult (.ofOpcode op [.reg Reg.zero, ox, oy]) = .ok (result op)) ∧
    ∀ (v : View) (next : Nat) (p : Instr) (c : Command) (rest : List Operand) (w : Word),
      Folding.isFoldable v c = true → c.args = .reg d :: rest → k.result? c = some w →
      ∃ o, (Folding.fold v k next p c).instr.command? = some (.ofOpcode .li [.reg d, o]) ∧
        Operand.ofText o.text = .ok o ∧ ∀ k' : Known, k'.operand? o = some w := by
  have unary {op : Opcode} (folds : op ∈ [Opcode.neg, .negu, .not]) :=
    result?_unary (d := d) first folds
  refine ⟨?_, ?_, ⟨(Word.multiplier? · x y), productArithmetic x y, divisionArithmetic x y,
    multiplierResult_two first second, fun op => multiplierResult_three first second⟩, ?_⟩
  · obtain ⟨neg_isSome, neg, negu, not⟩ := unaryArithmetic x
    constructor <;> simpa only [unary, List.mem_cons, true_or, or_true]
  · simpa only [result?_binary nonzero first second] using binaryArithmetic x y
  · exact fun v next p c rest w foldable args result => literal_reads_back foldable args result next

/-- The least word has no quotient by minus one, and no negation, but a product. -/
theorem folds_as_machine_least :
    let k : Known :=
      { fixed := .empty
        regs := [(.general 8, BitVec.intMin 32), (.general 9, -1)] }
    let d : Operand := .reg (.general 10)
    let x : Operand := .reg (.general 8)
    let y : Operand := .reg (.general 9)
    (k.result? (.ofOpcode .neg [d, x])).isSome = false ∧
      (k.result? (.ofOpcode .div [d, x, y])).isSome = false ∧
      ∃ hi lo, k.multiplierResult (.ofOpcode .mult [x, y]) = .ok (some (hi, lo)) ∧
        hi.toInt * 2 ^ 32 + lo.toNat = 2 ^ 31 := by
  intro k d x y
  have nonzero : (Reg.general 10).isZero = false := rfl
  have first : k.operand? x = some (BitVec.intMin 32) := rfl
  have second : k.operand? y = some (-1) := rfl
  obtain ⟨unary, binary, ⟨result, product, -, results, -⟩, -⟩ :=
    folds_as_machine nonzero first second
  refine ⟨?_, ?_, ?_⟩
  · rw [← Bool.not_eq_true, unary.neg_isSome]
    decide
  · rw [← Bool.not_eq_true, binary.div_isSome .div (by simp)]
    exact fun defined => defined.2 (by decide)
  · obtain ⟨hi, lo, isProduct, exact⟩ := product.mult
    exact ⟨hi, lo, by rw [results, isProduct], exact⟩

end Known

end MipsFlow
