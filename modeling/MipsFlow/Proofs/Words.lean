import MipsFlow.Proofs.Interpretation
import MipsFlow.Word

/-!
# The integer machine

The interpretation of commands over words of 32 bits and a memory of words. Arithmetic is that of
`Word.unary?`, `Word.binary?` and `Word.multiplier?`; where these give no result the machine
leaves zero. A symbol in a memory place stands for address zero. Where jumps go depends on the
graph, and is a parameter.
-/

namespace MipsFlow

theorem Word.binary?_comm {op : Opcode} (commutes : op.has .commutes = true) (x y : Word) :
    Word.binary? op x y = Word.binary? op y x := by
  cases op <;> simp [Opcode.has, Opcode.traits] at commutes <;>
    simp only [Word.binary?, Int.add_comm, BitVec.add_comm, BitVec.mul_comm, BitVec.and_comm,
      BitVec.or_comm, BitVec.xor_comm]

/-- A word for every address. -/
abbrev Memory := Word → Word

/-- The distance from the base, as a word. -/
def Offset.word : Offset → Word
  | .number n => .ofImm n
  | .symbol _ => 0

/-- The word that an operand stands for. -/
def Seen.word : Seen Word → Word
  | .value x => x
  | .literal n => .ofImm n
  | .place offset base => base + offset.word
  | .unread | .symbol _ => 0

namespace Words

/-- What a command writes to the operand that it defines. -/
def result (i : Inputs Word Memory) : Word :=
  match i.op?, i.operands with
  | some .mflo, [_] | some .mfhi, [_] => i.implied.headD 0
  | some .li, [_, o] | some .move, [_, o] | some .la, [_, o] => o.word
  | some .lui, [_, o] => o.word <<< 16
  | some _, [_, .place offset base] => i.mem (base + offset.word)
  | some op, [.value x, o] => (Word.binary? op x o.word).getD 0
  | some op, [_, o] => (Word.unary? op o.word).getD 0
  | some op, [_, x, y] => (Word.binary? op x.word y.word).getD 0
  | _, _ => 0

theorem result_three (op : Opcode) (first x y : Seen Word) (named : List Word) (mem : Memory) :
    result ⟨some op, [first, x, y], named, mem⟩ = (Word.binary? op x.word y.word).getD 0 := by
  simp [result]

/-- What a command leaves in the multiplier's registers, high word first. -/
def product (i : Inputs Word Memory) : Word × Word :=
  match i.op?, i.operands with
  | some op, [x, y] | some op, [_, x, y] => (Word.multiplier? op x.word y.word).getD (0, 0)
  | _, _ => (0, 0)

/-- What a command leaves in a register that it may write without naming it. -/
def implied (i : Inputs Word Memory) (r : Reg) : Word :=
  if r = .hi then (product i).1 else if r = .lo then (product i).2 else 0

/-- What a store makes of memory. -/
def memory (i : Inputs Word Memory) : Memory :=
  match i.operands with
  | [o, .place offset base] => fun address =>
    if address = base + offset.word then o.word else i.mem address
  | _ => i.mem

/-- The meaning of the commands, given where jumps go. -/
def meaning (goes : Nat → Inputs Word Memory → Option Nat) : Interpretation Word Memory :=
  { zero := 0
    result
    implied
    memory
    foreign := fun _ s => s
    goes
    foreignGoes := fun _ _ _ => none }

end Words

end MipsFlow
