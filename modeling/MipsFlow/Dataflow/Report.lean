import MipsFlow.Dataflow.Facts

/-!
# Reports on the facts of a block

The facts at the two ends of a block, in fixed orders: as four lines that are attached to the
block's first instruction, and as an indented record with the type and the size of every field.
-/

namespace MipsFlow

/-- The facts at the two ends of a block, listed in order. -/
structure BlockFacts where
  block : Nat
  succ : List Nat
  pred : List Nat
  liveIn : List Reg
  liveOut : List Reg
  reachIn : List Nat
  reachOut : List Nat
  copiesIn : List String
  copiesOut : List String
deriving DecidableEq, Repr

namespace BlockFacts

/-- Registers in listing order. -/
def listRegs (s : FactSet Reg) : List Reg := Reg.sort s.members

/-- Identities in increasing order. -/
def listIds (s : FactSet Nat) : List Nat := s.members.mergeSort

/-- Copies as equations, in the order of their texts. -/
def listCopies (s : FactSet Copy) : List String := (s.sorted Copy.text).map Copy.text

/-- The facts of a block. -/
def collect (f : Facts) (b : Block) : BlockFacts :=
  { block := b.id
    succ := b.succ
    pred := b.pred
    liveIn := listRegs (f.live.entryOf b.id)
    liveOut := listRegs (f.live.exitOf b.id)
    reachIn := listIds (f.reach.entryOf b.id)
    reachOut := listIds (f.reach.exitOf b.id)
    copiesIn := listCopies (f.copies.entryOf b.id)
    copiesOut := listCopies (f.copies.exitOf b.id) }

/-! ## Four lines -/

/-- Words in brackets, separated by blanks. -/
def bracketed (words : List String) : String := "[" ++ " ".intercalate words ++ "]"

/-- Numbers in brackets. -/
def bracketedNumbers (ns : List Nat) : String := bracketed (ns.map Text.decimalNat)

/-- The facts of a block in four lines. -/
def summary (v : BlockFacts) : List String :=
  [ "bb_" ++ Text.decimalNat v.block ++ ": succ " ++ bracketedNumbers v.succ ++ ", pred " ++
      bracketedNumbers v.pred,
    "live in " ++ bracketed (v.liveIn.map Reg.name) ++ ", live out " ++
      bracketed (v.liveOut.map Reg.name),
    "reach in " ++ bracketedNumbers v.reachIn ++ ", reach out " ++ bracketedNumbers v.reachOut,
    "copies in " ++ bracketed v.copiesIn ++ ", copies out " ++ bracketed v.copiesOut ]

/-! ## Indented record -/

/-- A number with its type. -/
def typedNumber (type : String) (n : Nat) : String := "(" ++ type ++ ") " ++ Text.decimalNat n

/-- A text with its type and its size in bytes. -/
def typedText (type : String) (s : String) : String :=
  "(" ++ type ++ ") (len=" ++ Text.decimalNat s.utf8ByteSize ++ ") " ++ Text.quote s

/-- A list with its type, one element on a line. An empty one has no size. -/
def typedList (type : String) (elements : List String) : String :=
  let size :=
    if elements.isEmpty then "" else "(len=" ++ Text.decimalNat elements.length ++ ") "
  "([]" ++ type ++ ") " ++ size ++ "\x7b\n" ++
    String.join (elements.zipIdx.map fun (element, i) =>
      "        " ++ element ++ (if i + 1 = elements.length then "\n" else ",\n")) ++
    "    \x7d"

/-- A list that counts as absent when it is empty. -/
def optionalList (type : String) (elements : List String) : String :=
  if elements.isEmpty then "([]" ++ type ++ ") <nil>" else typedList type elements

/-- The facts of a block as an indented record. -/
def dump (v : BlockFacts) : String :=
  let numbers (ns : List Nat) := ns.map (typedNumber "uint64")
  let regs (rs : List Reg) := rs.map fun r => typedText "ir.Reg" r.name
  let texts (ss : List String) := ss.map (typedText "string")
  let fields : List (String × String) :=
    [ ("Block", typedNumber "int" v.block),
      ("Succ", optionalList "int" (v.succ.map (typedNumber "int"))),
      ("Pred", optionalList "int" (v.pred.map (typedNumber "int"))),
      ("LiveIn", typedList "ir.Reg" (regs v.liveIn)),
      ("LiveOut", typedList "ir.Reg" (regs v.liveOut)),
      ("ReachIn", typedList "uint64" (numbers v.reachIn)),
      ("ReachOut", typedList "uint64" (numbers v.reachOut)),
      ("CopiesIn", typedList "string" (texts v.copiesIn)),
      ("CopiesOut", typedList "string" (texts v.copiesOut)) ]
  "(dataflow._BlockFacts) \x7b\n" ++
    ",\n".intercalate (fields.map fun (name, value) => "    " ++ name ++ ": " ++ value) ++
    "\n\x7d\n"

end BlockFacts

end MipsFlow
