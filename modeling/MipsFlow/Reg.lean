import MipsFlow.Text.Decimal
import MipsFlow.Fault
import MipsFlow.Sorting

/-!
# Registers

A general register is known by its number, whichever of its names the source used. A floating
point register keeps the spelling it was written with. The multiplier's two result registers and
the floating point condition flag have no name in the source, and are registers here because
commands read and write them.
-/

namespace MipsFlow

/-- A register of the machine. -/
inductive Reg where
  /-- One of the thirty-two general registers. -/
  | general (number : Fin 32)
  /-- A floating point register, by the text after `$f`. -/
  | float (spelling : String)
  /-- The high word of a product, or the remainder of a division. -/
  | hi
  /-- The low word of a product, or the quotient of a division. -/
  | lo
  /-- The flag that floating point comparisons set. -/
  | flag
deriving DecidableEq, Repr, Inhabited

namespace Reg

/-! ## Registers with a role -/

/-- The register that always reads as zero. -/
def zero : Reg := .general 0

/-- The register that calls leave their return address in. -/
def link : Reg := .general 31

/-- Carry the first four words of a call's arguments. -/
def arguments : List Reg := [.general 4, .general 5, .general 6, .general 7]

/-- Carries the first word that a call returns, and the number of a system service. -/
def firstResult : Reg := .general 2

/-- Carries the second word that a call returns. -/
def secondResult : Reg := .general 3

/-- Carry the values that a call returns. -/
def results : List Reg := [firstResult, secondResult, .float "0", .float "2"]

/-- Hold at a return what they held on entry. -/
def calleeSaved : List Reg :=
  [.general 16, .general 17, .general 18, .general 19, .general 20, .general 21, .general 22,
    .general 23]

/-- The temporaries that may be allocated, in order of preference. -/
def scratch : List Reg :=
  [.general 8, .general 9, .general 10, .general 11, .general 12, .general 13, .general 14,
    .general 15, .general 24, .general 25]

/-- Always live: zero, the global, stack and frame pointers, and the link register. -/
def alwaysReserved : List Reg := [zero, .general 28, .general 29, .general 30, link]

/-- Every register that a call may overwrite. -/
def callerSaved : List Reg :=
  [.general 1, .general 2, .general 3] ++ arguments ++ scratch ++ [link, .hi, .lo, .flag] ++
    (List.range 20).map fun n => .float (Text.decimalNat n)

/-- The register is hard-wired to zero. -/
def isZero (r : Reg) : Bool := r = zero

/-- The register has no name in the source. -/
def isPseudo : Reg → Bool
  | .hi | .lo | .flag => true
  | .general _ | .float _ => false

/-- The register is one of the four argument registers. -/
def isArgument (r : Reg) : Bool := arguments.contains r

/-! ## Names -/

/-- The names of the general registers besides their numbers, without the dollar sign. -/
def aliases : List (String × Fin 32) :=
  [("zero", 0), ("at", 1), ("v0", 2), ("v1", 3), ("a0", 4), ("a1", 5), ("a2", 6), ("a3", 7),
    ("t0", 8), ("t1", 9), ("t2", 10), ("t3", 11), ("t4", 12), ("t5", 13), ("t6", 14), ("t7", 15),
    ("s0", 16), ("s1", 17), ("s2", 18), ("s3", 19), ("s4", 20), ("s5", 21), ("s6", 22),
    ("s7", 23), ("t8", 24), ("t9", 25), ("k0", 26), ("k1", 27), ("gp", 28), ("sp", 29),
    ("fp", 30), ("s8", 30), ("ra", 31)]

/-- The canonical name: the number, but for the global, stack and frame pointers. -/
def name : Reg → String
  | .general n =>
    if n = 28 then "$gp" else if n = 29 then "$sp" else if n = 30 then "$fp"
    else "$" ++ Text.decimalNat n.val
  | .float spelling => "$f" ++ spelling
  | .hi => "$hi"
  | .lo => "$lo"
  | .flag => "$fcc"

/-- The names of the registers that the source cannot name. -/
def pseudoNames : List String := [Reg.hi.name, Reg.lo.name, Reg.flag.name]

/-- The number of a register, if the integer is one. -/
def number? (n : Int) : Option (Fin 32) :=
  if h : n.toNat < 32 then if 0 ≤ n then some ⟨n.toNat, h⟩ else none else none

/-- Reads the part of a floating point register's name after `$f`: a decimal number below
thirty-two, with or without a sign and leading zeros. -/
def ofFloatSpelling? (cs : List Char) : Option Reg :=
  ((Text.readDecimal? cs).bind number?).map fun _ => .float (String.ofList cs)

/-- Reads the part of a name after the dollar sign. A number has to be written canonically. -/
def ofBareName? (cs : List Char) : Option Reg :=
  match aliases.lookup (String.ofList cs) with
  | some n => some (.general n)
  | none =>
    match Text.readDecimal? cs with
    | some n =>
      if Text.decimal n = String.ofList cs then (number? n).map .general else none
    | none =>
      match cs with
      | 'f' :: rest => ofFloatSpelling? rest
      | _ => none

/-- Reads the name of a register. Names such as `$LC0`, which are labels, give none. -/
def ofName? (s : String) : Option Reg :=
  match s.toList with
  | '$' :: cs => ofBareName? cs
  | _ => none

/-- Reads a name that has to be a register's. -/
def require (s : String) : Except Fault Reg :=
  match ofName? s with
  | some r => .ok r
  | none => .error (.notARegister s)

/-! ## Listing order -/

/-- The number that stands behind the first byte of a name, if there is one. A first character of
several bytes leaves no number. -/
def nameNumber? (s : String) : Option Int :=
  match s.toList with
  | c :: cs => if c.utf8Size = 1 then Text.readDecimal? cs else none
  | [] => none

/-- The order in which registers are listed: those with a number for a name first, by their
number, then the others by name. Different names of one number have the same rank. -/
def nameLt (a b : String) : Bool :=
  match nameNumber? a, nameNumber? b with
  | some m, some n => m < n
  | some _, none => true
  | none, some _ => false
  | none, none => a < b

/-- The registers in listing order. No two registers have the same rank. -/
def sort (rs : List Reg) : List Reg :=
  rs.mergeSort fun a b => !nameLt b.name a.name

/-- Names in listing order; names of the same rank stand as the sort leaves them. Names have to be
compared without their first character, so two or more of them must all have one. -/
def sortNames (names : List String) : Except Fault (List String) :=
  if 2 ≤ names.length ∧ names.contains "" then .error .emptyText
  else .ok (Sorting.quicksort nameLt names)

end Reg

end MipsFlow
