/-!
# Decimal text of numbers

Whole numbers are written with the fewest decimal digits, a minus sign in front of the negative
ones. Reading accepts either sign and leading zeros, and only what fits a signed 64-bit word.
-/

namespace MipsFlow.Text

/-- The decimal digits of a natural number, without leading zeros. -/
def decimalNat (n : Nat) : String :=
  String.ofList (Nat.toDigits 10 n)

/-- The decimal text of an integer, with a minus sign if it is negative. -/
def decimal : Int → String
  | .ofNat n => decimalNat n
  | .negSucc n => "-" ++ decimalNat (n + 1)

/-- The number that a run of decimal digits denotes, most significant digit first. -/
def digitsValue (cs : List Char) : Nat :=
  cs.foldl (fun n c => 10 * n + (c.toNat - '0'.toNat)) 0

/-- Reads a non-empty run of decimal digits. -/
def readDigits? (cs : List Char) : Option Nat :=
  if cs ≠ [] ∧ cs.all Char.isDigit then some (digitsValue cs) else none

/-- The integer, if it is one of the values of a signed 64-bit word. -/
def fits64? (n : Int) : Option Int :=
  if Int64.minValue.toInt ≤ n ∧ n ≤ Int64.maxValue.toInt then some n else none

/-- Reads an optionally signed decimal number that fits a signed 64-bit word. -/
def readDecimal? : List Char → Option Int
  | '-' :: cs => (readDigits? cs).bind fun n => fits64? (-(n : Int))
  | '+' :: cs => (readDigits? cs).bind fun n => fits64? (n : Int)
  | cs => (readDigits? cs).bind fun n => fits64? (n : Int)

end MipsFlow.Text
