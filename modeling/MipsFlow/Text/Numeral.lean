/-!
# Numerals of assembly sources

A numeral is a run of digits in base ten, or in the base that its marker names: `0x` for sixteen,
`0o` or a plain leading `0` for eight, `0b` for two, in either case of the letter. Underscores may
stand between two digits, or between the marker and a digit. Numerals are read from left to
right, so that the first thing wrong with one decides whether it is malformed or too large.
-/

namespace MipsFlow.Text

/-- Why a text is not a numeral of the expected width. -/
inductive NumeralError where
  | malformed
  | outOfRange
deriving DecidableEq, Repr

namespace Numeral

/-- The value of a digit in any base up to thirty-six. -/
def digit? (c : Char) : Option Nat :=
  if '0' ≤ c ∧ c ≤ '9' then some (c.toNat - '0'.toNat)
  else if 'a' ≤ c ∧ c ≤ 'z' then some (c.toNat - 'a'.toNat + 10)
  else if 'A' ≤ c ∧ c ≤ 'Z' then some (c.toNat - 'A'.toNat + 10)
  else none

/-- The base that the letter of a marker stands for. -/
def markedBase? (c : Char) : Option Nat :=
  if c = 'x' ∨ c = 'X' then some 16
  else if c = 'o' ∨ c = 'O' then some 8
  else if c = 'b' ∨ c = 'B' then some 2
  else none

/-- Splits a numeral into its base and its digits. A marker needs something after it, otherwise
its zero is the sign of base eight and its letter is an ordinary character. -/
def splitBase : List Char → Nat × List Char
  | '0' :: c :: d :: rest =>
    match markedBase? c with
    | some base => (base, d :: rest)
    | none => (8, c :: d :: rest)
  | '0' :: rest => (8, rest)
  | cs => (10, cs)

/-- Adds the digits of `cs`, most significant first, to the value `n` of those before them.
Underscores are skipped, and the value has to stay below `2 ^ 64`. -/
def accumulate (base : Nat) : Nat → List Char → Except NumeralError Nat
  | n, [] => .ok n
  | n, c :: cs =>
    if c = '_' then accumulate base n cs
    else
      match digit? c with
      | none => .error .malformed
      | some d =>
        if base ≤ d then .error .malformed
        else if 2 ^ 64 ≤ n * base + d then .error .outOfRange
        else accumulate base (n * base + d) cs

/-- Every underscore follows a digit, or the place where `afterDigit` says that one has been, and
is followed by another digit. -/
def underscoresSeparate : Bool → List Char → Bool
  | _, [] => true
  | afterDigit, '_' :: cs => afterDigit && !cs.isEmpty && underscoresSeparate false cs
  | _, _ :: cs => underscoresSeparate true cs

/-- An underscore may directly follow what selects the base: a marker or the leading zero. -/
def wellSeparated (cs : List Char) : Bool :=
  let (base, digits) := splitBase cs
  underscoresSeparate (base ≠ 10) digits

/-- Reads a numeral without a sign, of a value below `2 ^ 64`. -/
def unsigned (cs : List Char) : Except NumeralError Nat :=
  if cs.isEmpty then .error .malformed
  else
    let (base, digits) := splitBase cs
    match accumulate base 0 digits with
    | .error e => .error e
    | .ok n => if wellSeparated cs then .ok n else .error .malformed

/-- Keeps a value that a signed 64-bit word can hold. -/
def inSignedRange (n : Int) : Except NumeralError Int :=
  if Int64.minValue.toInt ≤ n ∧ n ≤ Int64.maxValue.toInt then .ok n else .error .outOfRange

/-- Reads a numeral with an optional sign, of a value that a signed 64-bit word can hold. -/
def signed : List Char → Except NumeralError Int
  | '-' :: cs => do inSignedRange (-(← unsigned cs : Nat))
  | '+' :: cs => do inSignedRange (← unsigned cs : Nat)
  | cs => do inSignedRange (← unsigned cs : Nat)

end Numeral

end MipsFlow.Text
