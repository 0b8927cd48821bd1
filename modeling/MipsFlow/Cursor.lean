import MipsFlow.Edit
import MipsFlow.Fault
import MipsFlow.Instr.Roles

/-!
# Cursors

A cursor is a sequence of instructions with a place in it. It reads forward, looks ahead, and
exchanges windows of the sequence; after an exchange it stands right behind the replacement. A
refused call answers with its fault, and the cursor is as it was.

Positions and counts are signed words of 64 bits. The sum of two of them may wrap around to a
negative number, which is never a position; only the fault that is answered can tell.

Every position holds an instruction, and what a filter keeps is decided by a function that always
answers: places that hold nothing, and tests that fail themselves, are left out.
-/

namespace MipsFlow

/-- A sequence of instructions that is being read and edited. -/
structure Cursor where
  code : List Instr
  /-- Changes leave notes. -/
  annotated : Bool
  /-- The number of instructions that there is room for. -/
  room : Nat
  /-- The number of instructions before the cursor. -/
  pos : Nat := 0
  /-- The instruction before the cursor has just been read. -/
  fresh : Bool := false
deriving DecidableEq, Repr

namespace Cursor

/-- The room of a sequence that has grown one by one. Beyond the last step it is exact. -/
def roomSteps : List Nat :=
  [0, 1, 2, 4, 8, 16, 32, 64, 128, 256, 512, 848, 1280, 1792, 2560, 3408, 5120]

/-- A cursor before the first instruction of a sequence. -/
def ofCode (code : List Instr) (annotated : Bool) : Cursor :=
  { code, annotated, room := (roomSteps.find? (code.length ≤ ·)).getD code.length }

/-- The sum of two words. -/
def wrappedSum (a b : Int) : Int := (a + b).bmod UInt64.size

/-- Nothing is left to read. -/
def atEnd (k : Cursor) : Bool := k.code.length ≤ k.pos

/-- Goes back to the first instruction. -/
def reset (k : Cursor) : Cursor := { k with pos := 0, fresh := false }

/-- Reads the next instruction. -/
def read (k : Cursor) : Except Fault (Instr × Cursor) :=
  match k.code[k.pos]? with
  | some p => .ok (p, { k with pos := k.pos + 1, fresh := true })
  | none => .error .readPastEnd

/-- Up to `count` instructions behind the cursor. -/
def peek (k : Cursor) (count : Int) : Except Fault (List Instr) :=
  if count < 0 then .error (.peekCount count)
  else if wrappedSum k.pos count < 0 then .error (.wrapped (wrappedSum k.pos count))
  else .ok ((k.code.drop k.pos).take count.toNat)

/-- What is wrong with a window that is not inside the sequence. Where the end of the window has
wrapped around, it is what fails first: the notes of the window are collected if changes leave
notes, then the new sequence is laid out, then the part before the window is taken. -/
def windowFault (k : Cursor) (start count : Int) (repl : List Instr) : Fault :=
  let stop := wrappedSum start count
  if start < 0 ∨ count < 0 ∨ k.code.length < stop then .window start stop k.code.length
  else if k.annotated then .wrapped stop
  else if k.code.length - count + repl.length < 0 then .negativeLength
  else .beyondRoom start k.room

/-- Exchanges the window of `count` instructions from `start` on for `repl`. -/
def replaceAt (k : Cursor) (start count : Int) (repl : List Instr) (note : String) :
    Except Fault Cursor :=
  if start < 0 ∨ count < 0 ∨ k.code.length < start + count then
    .error (k.windowFault start count repl)
  else
    let code := Edit.splice k.annotated k.code start.toNat count.toNat repl note
    .ok { k with code, room := code.length, pos := start.toNat + repl.length, fresh := false }

/-- Exchanges `count` instructions, from the one just read on, for `repl`. -/
def replace (k : Cursor) (count : Int) (repl : List Instr) (note : String) :
    Except Fault Cursor :=
  if k.fresh then k.replaceAt (k.pos - 1 : Nat) count repl note else .error .nothingRead

/-- Puts an instruction before the one at position `place`. -/
def insert (k : Cursor) (place : Int) (p : Instr) (note : String) : Except Fault Cursor :=
  k.replaceAt place 0 [p] note

/-- Removes the instruction just read. -/
def remove (k : Cursor) (note : String) : Except Fault Cursor :=
  k.replace 1 [] note

/-- Keeps the instructions that `keep` accepts, and goes back to the first of them. -/
def filter (k : Cursor) (keep : Instr → Bool) : Cursor :=
  { k with code := Edit.sift k.annotated keep k.code, pos := 0, fresh := false }

/-- The instruction at a position. -/
def get (k : Cursor) (place : Int) : Except Fault Instr :=
  match if place < 0 then none else k.code[place.toNat]? with
  | some p => .ok p
  | none => .error (.outOfBounds place k.code.length)

/-- Changes the instruction at a position, wherever it stands in the sequence. -/
def modify (k : Cursor) (place : Int) (change : Instr → Instr) : Except Fault Cursor :=
  (k.get place).map fun p => { k with code := Edit.update k.code p.id change }

end Cursor

end MipsFlow
