import Mathlib.Algebra.Ring.Nat
import MipsFlow.Text.Decimal
import MipsFlow.Text.Numeral

/-!
# Decimal text as a numeral

Numbers are written in decimal without leading zeros, so nothing in the text of one selects another
base: it is read as the same number again (`Numeral.unsigned_toDigits`, `Numeral.signed_decimal`).
-/

namespace MipsFlow.Text

variable {n : Nat} {cs : List Char}

/-! ## Decimal text -/

@[simp] theorem toList_decimalNat (n : Nat) : (decimalNat n).toList = Nat.toDigits 10 n :=
  String.toList_ofList

theorem isDigit_of_mem_toDigits {c : Char} (member : c ∈ Nat.toDigits 10 n) : c.isDigit = true :=
  Nat.isDigit_of_mem_toDigits (by decide) (by decide) member

/-- The digits of a positive number begin with another one than zero. -/
theorem toDigits_eq_cons (positive : 0 < n) :
    ∃ c cs, Nat.toDigits 10 n = c :: cs ∧ c ≠ '0' := by
  induction n using Nat.strongRecOn with
  | ind n ih =>
    rcases Nat.lt_or_ge n 10 with small | large
    · exact ⟨n.digitChar, [], Nat.toDigits_of_lt_base small, by simpa using Nat.ne_of_gt positive⟩
    · obtain ⟨c, cs, digits, nonzero⟩ := ih (n / 10) (by omega) (by omega)
      exact ⟨c, cs ++ [(n % 10).digitChar],
        by rw [Nat.toDigits_of_base_le (by decide) large, digits]; rfl, nonzero⟩

/-- The text of an integer is made of digits, after a minus sign perhaps. -/
theorem toList_decimal (v : Int) : (decimal v).toList =
    if v < 0 then '-' :: Nat.toDigits 10 v.natAbs else Nat.toDigits 10 v.natAbs := by
  cases v with
  | ofNat n => exact toList_decimalNat n
  | negSucc n => simp [decimal, Int.negSucc_lt_zero]

/-! ## Reading it as a numeral -/

namespace Numeral

theorem digit?_of_isDigit {c : Char} (isDigit : c.isDigit = true) :
    digit? c = some (c.toNat - '0'.toNat) ∧ c.toNat - '0'.toNat < 10 := by
  obtain ⟨low, high⟩ : '0' ≤ c ∧ c ≤ '9' := by
    simpa [Char.isDigit, Char.le_def] using isDigit
  have top : c.toNat ≤ '9'.toNat := high
  have isNine : '9'.toNat = 57 := rfl
  have isZero : '0'.toNat = 48 := rfl
  exact ⟨if_pos ⟨low, high⟩, by omega⟩

/-- A digit is added to the value of those before it. -/
theorem accumulate_digit {base d : Nat} {c : Char} (notGap : c ≠ '_') (value : digit? c = some d)
    (small : d < base) (fits : n * base + d < 2 ^ 64) :
    accumulate base n (c :: cs) = accumulate base (n * base + d) cs := by
  change (if c = '_' then accumulate base n cs else _) = _
  rw [if_neg notGap, value]
  exact (if_neg (Nat.not_le.2 small)).trans (if_neg (Nat.not_le.2 fits))

/-- Digits add up to the number that they denote, as long as it fits. -/
theorem accumulate_digits (digits : ∀ c ∈ cs, c.isDigit = true)
    (fits : Nat.ofDigitChars 10 cs n < 2 ^ 64) :
    accumulate 10 n cs = .ok (Nat.ofDigitChars 10 cs n) := by
  induction cs generalizing n with
  | nil => rfl
  | cons c cs ih =>
    obtain ⟨isDigit, rest⟩ := List.forall_mem_cons.1 digits
    obtain ⟨value, small⟩ := digit?_of_isDigit isDigit
    have notGap : c ≠ '_' := by
      rintro rfl
      contradiction
    rw [Nat.ofDigitChars_cons] at fits ⊢
    have grows : 10 * n + (c.toNat - '0'.toNat) ≤
        Nat.ofDigitChars 10 cs (10 * n + (c.toNat - '0'.toNat)) := by
      rw [Nat.ofDigitChars_eq_ofDigitChars_zero]
      have scaled := Nat.le_mul_of_pos_left (10 * n + (c.toNat - '0'.toNat))
        (Nat.pow_pos (n := cs.length) (show 0 < 10 by decide))
      exact Nat.le_trans scaled (Nat.le_add_right _ _)
    have step : accumulate 10 n (c :: cs) = accumulate 10 (n * 10 + (c.toNat - '0'.toNat)) cs :=
      accumulate_digit notGap value small (by omega)
    rw [step, Nat.mul_comm n 10]
    exact ih rest fits

theorem underscoresSeparate_of_not_mem {after : Bool} (absent : '_' ∉ cs) :
    underscoresSeparate after cs = true := by
  induction cs generalizing after with
  | nil => rfl
  | cons c cs ih =>
    rw [List.mem_cons, not_or] at absent
    obtain ⟨here, rest⟩ := absent
    rw [underscoresSeparate.eq_3 _ _ _ fun isGap => here isGap.symm]
    exact ih rest

/-- A natural number is read back from its decimal text. -/
theorem unsigned_toDigits (fits : n < 2 ^ 64) : unsigned (Nat.toDigits 10 n) = .ok n := by
  rcases Nat.eq_zero_or_pos n with rfl | positive
  · rfl
  · obtain ⟨c, cs, digits, nonzero⟩ := toDigits_eq_cons positive
    have base : splitBase (Nat.toDigits 10 n) = (10, Nat.toDigits 10 n) := by
      rw [digits]
      unfold splitBase
      split <;> simp_all
    have value : accumulate 10 0 (Nat.toDigits 10 n) = .ok n := by
      have isValue := Nat.ofDigitChars_ten_toDigits (n := n)
      rw [accumulate_digits (fun c => isDigit_of_mem_toDigits) (isValue.symm ▸ fits), isValue]
    have separated : wellSeparated (Nat.toDigits 10 n) = true := by
      unfold wellSeparated
      rw [base]
      exact underscoresSeparate_of_not_mem Nat.underscore_not_in_toDigits
    simp [unsigned, base, value, separated, Nat.toDigits_ne_nil]

/-- Without a sign in front, a signed numeral is an unsigned one in range. -/
theorem signed_of_isDigit {c : Char} (isDigit : c.isDigit = true) (cs : List Char) :
    signed (c :: cs) = (unsigned (c :: cs)).bind fun n => inSignedRange n := by
  unfold signed
  split
  · simp_all
  · simp_all
  · rfl

/-- A signed word is read back from its decimal text. -/
theorem signed_decimal (v : Int64) : signed (decimal v.toInt).toList = .ok v.toInt := by
  have low : Int64.minValue.toInt ≤ v.toInt := v.minValue_le_toInt
  have high : v.toInt ≤ Int64.maxValue.toInt := v.toInt_le
  have inRange : inSignedRange v.toInt = .ok v.toInt := if_pos ⟨low, high⟩
  rw [Int64.toInt_minValue] at low
  rw [Int64.toInt_maxValue] at high
  have read : unsigned (Nat.toDigits 10 v.toInt.natAbs) = .ok v.toInt.natAbs :=
    unsigned_toDigits (by omega)
  rw [toList_decimal]
  split
  · next negative =>
    have value : (-(v.toInt.natAbs : Int)) = v.toInt := by omega
    rw [signed]
    simp only [read, bind, Except.bind, value]
    exact inRange
  · next nonnegative =>
    have value : (v.toInt.natAbs : Int) = v.toInt := by omega
    obtain ⟨c, cs, digits⟩ := List.exists_cons_of_ne_nil
      (Nat.toDigits_ne_nil (n := v.toInt.natAbs) (b := 10))
    have isDigit : c.isDigit = true := isDigit_of_mem_toDigits (digits ▸ List.mem_cons_self)
    rw [digits, signed_of_isDigit isDigit, ← digits, read]
    simp only [Except.bind, value]
    exact inRange

end Numeral

end MipsFlow.Text
