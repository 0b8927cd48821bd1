import Mathlib.Algebra.Order.Ring.Int
import MipsFlow.Word

/-!
# Calculating with words

What the machine calculates, by the numbers that words stand for: signed, or unsigned, or as plain
rows of bits. A signed sum, difference or negation that does not fit a word stops the program, and
some quotients are not defined.

The optimizer evaluates an operation itself exactly if the machine has a result, and then to that
result (`unary?_eq`, `binary?_eq`, `multiplier?_eq`).
-/

namespace MipsFlow

namespace Alu

/-- What comes of a calculation. -/
inductive Calculation where
  | word (w : Word)
  /-- The number does not fit a signed word, and the program stops. -/
  | overflow
  /-- There is no result. -/
  | undefined
deriving DecidableEq, Repr

/-- The result, if there is one. -/
def Calculation.word? : Calculation → Option Word
  | .word w => some w
  | .overflow | .undefined => none

@[simp] theorem Calculation.word?_word (w : Word) : (Calculation.word w).word? = some w := rfl

@[simp] theorem Calculation.word?_undefined : Calculation.undefined.word? = none := rfl

/-- A number that has to fit a signed word. -/
def signed (n : Int) : Calculation :=
  if -2 ^ 31 ≤ n ∧ n < 2 ^ 31 then .word (BitVec.ofInt 32 n) else .overflow

/-- One if the condition holds, and zero if it does not. -/
def truth (condition : Prop) [Decidable condition] : Calculation :=
  .word (if condition then 1 else 0)

/-- There is no signed quotient by zero, and one does not fit a word. -/
def NoQuotient (x y : Word) : Prop := y.toInt = 0 ∨ x.toInt = -2 ^ 31 ∧ y.toInt = -1

instance (x y : Word) : Decidable (NoQuotient x y) := by
  unfold NoQuotient
  infer_instance

/-- A calculation with one word. -/
def unary? (op : Opcode) (x : Word) : Option Calculation :=
  match op with
  | .negu => some (.word (BitVec.ofInt 32 (-x.toInt)))
  | .neg => some (signed (-x.toInt))
  | .not => some (.word (~~~x))
  | _ => none

/-- A calculation with two words. Signed quotients are rounded toward zero. -/
def binary? (op : Opcode) (x y : Word) : Option Calculation :=
  match op with
  | .add | .addi => some (signed (x.toInt + y.toInt))
  | .sub => some (signed (x.toInt - y.toInt))
  | .addu | .addiu => some (.word (BitVec.ofInt 32 (x.toInt + y.toInt)))
  | .subu => some (.word (BitVec.ofInt 32 (x.toInt - y.toInt)))
  | .mul => some (.word (BitVec.ofInt 32 (x.toInt * y.toInt)))
  | .and | .andi => some (.word (x &&& y))
  | .or | .ori => some (.word (x ||| y))
  | .xor | .xori => some (.word (x ^^^ y))
  | .nor => some (.word (~~~(x ||| y)))
  | .slt | .slti => some (truth (x.toInt < y.toInt))
  | .sltu | .sltiu => some (truth (x.toNat < y.toNat))
  | .sll | .sllv => some (.word (BitVec.ofNat 32 (x.toNat * 2 ^ (y.toNat % 32))))
  | .srl | .srlv => some (.word (BitVec.ofNat 32 (x.toNat / 2 ^ (y.toNat % 32))))
  | .sra | .srav => some (.word (BitVec.ofInt 32 (x.toInt / 2 ^ (y.toNat % 32))))
  | .div =>
    some (if NoQuotient x y then .undefined else .word (BitVec.ofInt 32 (x.toInt.tdiv y.toInt)))
  | .rem =>
    some (if NoQuotient x y then .undefined else .word (BitVec.ofInt 32 (x.toInt.tmod y.toInt)))
  | .divu =>
    some (if y.toNat = 0 then .undefined else .word (BitVec.ofNat 32 (x.toNat / y.toNat)))
  | .remu =>
    some (if y.toNat = 0 then .undefined else .word (BitVec.ofNat 32 (x.toNat % y.toNat)))
  | _ => none

/-- High and low word of a number. -/
def halves (n : Int) : Word × Word := (BitVec.ofInt 32 (n / 2 ^ 32), BitVec.ofInt 32 n)

/-- What a product, or a division into the multiplier, leaves in the high and the low register, if
there is a result. -/
def multiplier? (op : Opcode) (x y : Word) : Option (Word × Word) :=
  match op with
  | .mult => some (halves (x.toInt * y.toInt))
  | .multu => some (halves (x.toNat * y.toNat))
  | .div =>
    if NoQuotient x y then none
    else some (BitVec.ofInt 32 (x.toInt.tmod y.toInt), BitVec.ofInt 32 (x.toInt.tdiv y.toInt))
  | .divu =>
    if y.toNat = 0 then none
    else some (BitVec.ofNat 32 (x.toNat % y.toNat), BitVec.ofNat 32 (x.toNat / y.toNat))
  | _ => none

/-! ## Numbers and bits -/

section Words

variable (x y : Word) (n : Nat)

theorem ofInt_add : BitVec.ofInt 32 (x.toInt + y.toInt) = x + y := by
  rw [BitVec.ofInt_add, BitVec.ofInt_toInt, BitVec.ofInt_toInt]

theorem ofInt_sub : BitVec.ofInt 32 (x.toInt - y.toInt) = x - y := by
  rw [Int.sub_eq_add_neg, BitVec.ofInt_add, BitVec.ofInt_neg, BitVec.ofInt_toInt,
    BitVec.ofInt_toInt, BitVec.sub_eq_add_neg]

theorem ofInt_mul : BitVec.ofInt 32 (x.toInt * y.toInt) = x * y := by
  rw [BitVec.ofInt_mul, BitVec.ofInt_toInt, BitVec.ofInt_toInt]

theorem ofInt_neg : BitVec.ofInt 32 (-x.toInt) = -x := by
  rw [BitVec.ofInt_neg, BitVec.ofInt_toInt]

theorem ofInt_tdiv : BitVec.ofInt 32 (x.toInt.tdiv y.toInt) = x.sdiv y := by
  apply BitVec.eq_of_toInt_eq
  rw [BitVec.toInt_sdiv, BitVec.toInt_ofInt]

theorem ofInt_tmod : BitVec.ofInt 32 (x.toInt.tmod y.toInt) = x.srem y := by
  rw [← BitVec.toInt_srem, BitVec.ofInt_toInt]

theorem ofNat_div : BitVec.ofNat 32 (x.toNat / y.toNat) = x / y := by
  rw [← BitVec.toNat_udiv, BitVec.ofNat_toNat, BitVec.setWidth_eq]

theorem ofNat_mod : BitVec.ofNat 32 (x.toNat % y.toNat) = x % y := by
  rw [← BitVec.toNat_umod, BitVec.ofNat_toNat, BitVec.setWidth_eq]

theorem ofNat_mul_pow : BitVec.ofNat 32 (x.toNat * 2 ^ n) = x <<< n := by
  apply BitVec.eq_of_toNat_eq
  rw [BitVec.toNat_ofNat, BitVec.toNat_shiftLeft, Nat.shiftLeft_eq]

theorem ofNat_div_pow : BitVec.ofNat 32 (x.toNat / 2 ^ n) = x >>> n := by
  rw [← Nat.shiftRight_eq_div_pow, ← BitVec.toNat_ushiftRight, BitVec.ofNat_toNat,
    BitVec.setWidth_eq]

theorem ofInt_div_pow : BitVec.ofInt 32 (x.toInt / 2 ^ n) = x.sshiftRight n := by
  rw [BitVec.sshiftRight, Int.shiftRight_eq_div_pow, Int.natCast_pow]
  rfl

theorem truth_slt : truth (x.toInt < y.toInt) = .word (Word.ofBool (x.slt y)) := by
  simp [truth, Word.ofBool, BitVec.slt]

theorem truth_ult : truth (x.toNat < y.toNat) = .word (Word.ofBool (x.ult y)) := by
  simp [truth, Word.ofBool, BitVec.ult]

theorem noQuotient_iff : NoQuotient x y ↔ y = 0 ∨ Word.divisionOverflows x y = true := by
  have zero : y.toInt = 0 ↔ y = 0 := BitVec.toInt_inj (y := (0 : Word))
  have least : x.toInt = -2 ^ 31 ↔ x = BitVec.intMin 32 := BitVec.toInt_inj (y := BitVec.intMin 32)
  have minusOne : y.toInt = -1 ↔ y = -1 := BitVec.toInt_inj (y := (-1 : Word))
  rw [NoQuotient, zero, least, minusOne]
  simp [Word.divisionOverflows]

theorem toNat_eq_zero : y.toNat = 0 ↔ y = 0 := BitVec.toNat_inj (y := (0 : Word))

theorem word?_signed (n : Int) : (signed n).word? = Word.ofInt? n := by
  have bounds : Int32.minValue.toInt = -2 ^ 31 ∧ Int32.maxValue.toInt = 2 ^ 31 - 1 := by decide
  unfold signed Word.ofInt?
  by_cases fits : -2 ^ 31 ≤ n ∧ n < 2 ^ 31
  · rw [if_pos fits, if_pos (by omega)]
    rfl
  · rw [if_neg fits, if_neg (by omega)]
    rfl

theorem word?_signed_neg : (signed (-x.toInt)).word? =
    if x = BitVec.intMin 32 then none else some (-x) := by
  have least : x.toInt = -2 ^ 31 ↔ x = BitVec.intMin 32 := BitVec.toInt_inj (y := BitVec.intMin 32)
  have low := x.le_toInt
  have high := x.toInt_lt
  rw [signed, ofInt_neg]
  by_cases isLeast : x = BitVec.intMin 32
  · have number := least.2 isLeast
    rw [if_pos isLeast, if_neg (by omega)]
    rfl
  · have number : x.toInt ≠ -2 ^ 31 := fun number => isLeast (least.1 number)
    rw [if_neg isLeast, if_pos (by omega)]
    rfl

end Words

/-- The halves of a number are those of its double word. -/
theorem halves_eq_split (n : Int) : halves n = Word.split (BitVec.ofInt 64 n) := by
  unfold halves Word.split
  congr 1
  · apply BitVec.eq_of_toNat_eq
    rw [BitVec.extractLsb'_toNat, BitVec.toNat_ofInt, BitVec.toNat_ofInt, Nat.shiftRight_eq_div_pow]
    omega
  · apply BitVec.eq_of_toNat_eq
    rw [BitVec.toNat_setWidth, BitVec.toNat_ofInt, BitVec.toNat_ofInt]
    omega

/-! ## What the optimizer evaluates -/

theorem unary?_eq (op : Opcode) (x : Word) :
    Word.unary? op x = (unary? op x).bind Calculation.word? := by
  cases op <;> simp [Word.unary?, unary?, word?_signed_neg, ofInt_neg]

theorem binary?_eq (op : Opcode) (x y : Word) :
    Word.binary? op x y = (binary? op x y).bind Calculation.word? := by
  cases op <;> simp [Word.binary?, binary?, word?_signed, ofInt_add, ofInt_sub, ofInt_mul,
    ofInt_tdiv, ofInt_tmod, ofNat_div, ofNat_mod, ofNat_mul_pow, ofNat_div_pow, ofInt_div_pow,
    truth_slt, truth_ult, noQuotient_iff, toNat_eq_zero, apply_ite Calculation.word?]

theorem multiplier?_eq (op : Opcode) (x y : Word) :
    Word.multiplier? op x y = multiplier? op x y := by
  have signedProduct : x.signExtend 64 * y.signExtend 64 = BitVec.ofInt 64 (x.toInt * y.toInt) :=
    (BitVec.ofInt_mul ..).symm
  have unsignedProduct : x.setWidth 64 * y.setWidth 64 = BitVec.ofInt 64 (x.toNat * y.toNat) := by
    rw [← Int.natCast_mul, BitVec.ofInt_natCast, BitVec.ofNat_mul, BitVec.ofNat_toNat,
      BitVec.ofNat_toNat]
  cases op <;> simp [Word.multiplier?, multiplier?, halves_eq_split, signedProduct,
    unsignedProduct, noQuotient_iff, toNat_eq_zero, ofInt_tdiv, ofInt_tmod, ofNat_div, ofNat_mod]

end Alu

end MipsFlow
