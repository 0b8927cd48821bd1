/-!
# Repeating a step

Several passes go over a block again and again until they find nothing more to do. Each of them
comes with a bound on how often that can happen.
-/

namespace MipsFlow

/-- Repeats a step until it has nothing more to do, at most `fuel` times. -/
def exhaust {α : Type} (step : α → Option α) : Nat → α → α
  | 0, a => a
  | fuel + 1, a =>
    match step a with
    | some b => exhaust step fuel b
    | none => a

/-- If every step lowers a measure, and the fuel covers the measure, nothing is left to do. -/
theorem step_exhaust_eq_none {α : Type} (step : α → Option α) (measure : α → Nat)
    (lowers : ∀ a b, step a = some b → measure b < measure a) (fuel : Nat) (a : α)
    (enough : measure a ≤ fuel) : step (exhaust step fuel a) = none := by
  induction fuel generalizing a with
  | zero =>
    rw [exhaust]
    cases next : step a with
    | none => rfl
    | some b => exact absurd (lowers a b next) (by omega)
  | succ fuel ih =>
    rw [exhaust]
    cases next : step a with
    | none => exact next
    | some b => exact ih b (by have := lowers a b next; omega)

end MipsFlow
