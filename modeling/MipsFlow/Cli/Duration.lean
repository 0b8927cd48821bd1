import MipsFlow.Text.Decimal

/-!
# Text of a duration

Durations are shown in seconds with two decimals, in milliseconds with one, or in microseconds
with one, whichever is the largest unit that they reach.
-/

namespace MipsFlow.Cli

/-- A count of `1 / scale` parts, with a point before the last `places` digits. The scale is a
power of ten with that many zeros. -/
def fixedPoint (places parts : Nat) : String :=
  let scale := Nat.pow 10 places
  let fraction := Text.decimalNat (parts % scale)
  Text.decimalNat (parts / scale) ++ "." ++
    String.ofList (List.replicate (places - fraction.length) '0') ++ fraction

/-- The nearest whole number of units. -/
def nearest (n unit : Nat) : Nat := (n + unit / 2) / unit

/-- The text of a number of nanoseconds. -/
def durationText (nanoseconds : Nat) : String :=
  if 1000000000 ≤ nanoseconds then fixedPoint 2 (nearest nanoseconds 10000000) ++ "s"
  else if 1000000 ≤ nanoseconds then fixedPoint 1 (nearest nanoseconds 100000) ++ "ms"
  else fixedPoint 1 (nearest nanoseconds 100) ++ "μs"

end MipsFlow.Cli
