import MipsFlow.Text.Decimal
import MipsFlow.Text.Quoted

/-!
# Faults

A fault is a use of the library that it refuses: an option out of range, a cursor moved where it
cannot go, a program asked for the form it is not in. `Fault.message` holds the wording of each.
-/

namespace MipsFlow

/-- Why a call was refused. -/
inductive Fault where
  /-- A name that had to be a register is none. -/
  | notARegister (name : String)
  /-- An operand text had to be readable; `reason` says why it is not. -/
  | unreadableOperand (reason : String)
  /-- A record has an operand kind that does not exist. -/
  | operandKind (kind : Nat)
  /-- A record has an instruction kind that does not exist. -/
  | instructionKind (kind : Nat)
  /-- A position outside a sequence of `length` elements. -/
  | outOfBounds (index : Int) (length : Nat)
  /-- A text too short to have its first character cut off. -/
  | emptyText
  /-- A part of the state that no step has created yet. -/
  | missing
  /-- A cursor at the end was asked for another instruction. -/
  | readPastEnd
  /-- A negative number of instructions to look ahead. -/
  | peekCount (count : Int)
  /-- A replacement without an instruction that was just read. -/
  | nothingRead
  /-- A window that is not inside the sequence. -/
  | window (first last : Int) (length : Nat)
  /-- A position so great that the word for it has become negative. -/
  | wrapped (position : Int)
  /-- A sequence of a negative length. -/
  | negativeLength
  /-- A position outside the room of a sequence. -/
  | beyondRoom (position : Int) (room : Nat)
  /-- The flat form of a partitioned program was asked for. -/
  | partitioned
  /-- The blocks of a flat program were asked for. -/
  | notPartitioned
  /-- A partitioned program was to be partitioned. -/
  | alreadyPartitioned
  /-- A dataflow problem without one gen and one kill set for each block. -/
  | factSetCount (problem : String) (blocks : Nat)
  /-- A dataflow problem that meets by intersection and has no universe. -/
  | noUniverse (problem : String)
  /-- An option: the annotation level is negative. -/
  | verboseLevel (level : Int)
  /-- An option: the cycle limit is not positive. -/
  | cycleLimit (limit : Int)
  /-- An option: a reserved register is not one. -/
  | reservedName (name : String)
  /-- An environment variable is not a numeral. -/
  | environmentValue (key : String)
  /-- An environment variable is below its least value. -/
  | environmentTooSmall (key : String)
deriving DecidableEq, Repr

namespace Fault

/-- The text of a fault. -/
def message : Fault → String
  | .notARegister name => "ir: invalid register: " ++ Text.quote name
  | .unreadableOperand reason => reason
  | .operandKind kind => "ir: invalid operand kind: " ++ Text.decimalNat kind
  | .instructionKind kind => "ir: invalid instruction kind: " ++ Text.decimalNat kind
  | .outOfBounds index length =>
    if index < 0 then "runtime error: index out of range [" ++ Text.decimal index ++ "]"
    else "runtime error: index out of range [" ++ Text.decimal index ++ "] with length " ++
      Text.decimalNat length
  | .emptyText => "runtime error: slice bounds out of range [1:0]"
  | .missing => "runtime error: invalid memory address or nil pointer dereference"
  | .readPastEnd => "ir: read past the end of the stream"
  | .peekCount count => "ir: invalid peek count: " ++ Text.decimal count
  | .nothingRead => "ir: replace without reading an instruction first"
  | .window first last length =>
    "ir: replace window [" ++ Text.decimal first ++ ", " ++ Text.decimal last ++
      ") out of range [0, " ++ Text.decimalNat length ++ ")"
  | .wrapped position =>
    "runtime error: slice bounds out of range [:" ++ Text.decimal position ++ "]"
  | .negativeLength => "runtime error: makeslice: cap out of range"
  | .beyondRoom position room =>
    "runtime error: slice bounds out of range [:" ++ Text.decimal position ++
      "] with capacity " ++ Text.decimalNat room
  | .partitioned => "opt: program is partitioned"
  | .notPartitioned => "opt: program is not partitioned"
  | .alreadyPartitioned => "opt: program is already partitioned"
  | .factSetCount problem blocks =>
    "dataflow: " ++ problem ++ ": gen/kill sets do not match " ++ Text.decimalNat blocks ++
      " blocks"
  | .noUniverse problem => "dataflow: " ++ problem ++ ": must-analysis without an universe"
  | .verboseLevel level => "asmopt: invalid verbose level: " ++ Text.decimal level
  | .cycleLimit limit => "asmopt: invalid max cycles: " ++ Text.decimal limit
  | .reservedName name => "asmopt: invalid register: " ++ name
  | .environmentValue key => "asmopt: invalid value for " ++ key
  | .environmentTooSmall key => "asmopt: value too small for " ++ key

end Fault

end MipsFlow
