import MipsFlow.Optimizer.View

/-!
# Jump optimization

Two simplifications of the whole program. A branch over an unconditional jump becomes the opposite
branch to where the jump goes; a jump to a label right behind it goes.
-/

namespace MipsFlow

namespace Jumps

/-- The program with its jumps simplified, the next free identity, and whether anything changed. -/
structure Outcome where
  code : List Instr
  nextId : Nat
  changed : Bool
deriving DecidableEq, Repr

/-- The branch that takes the place of `p`, before a jump and a label: it goes where the jump goes
on the opposite condition, if `p` only skips the jump. -/
def inverted? (p : Instr) : List Instr → Option Command
  | q :: after :: _ => do
    let c ← p.command?
    let d ← q.command?
    let op ← c.op?.bind Opcode.inverse?
    let label ← c.target?
    let target ← d.target?
    if c.isBranch && d.isPlainJump && after.label? = some label then
      some ⟨.known op, c.args.dropLast ++ [.sym target]⟩
    else none
  | _ => none

/-- One of the labels at the beginning of a list is the given one. -/
def labelAhead (label : String) (rest : List Instr) : Bool :=
  (rest.takeWhile Instr.isLabel).any fun p => p.label? = some label

/-- The instruction jumps or branches, without calling, to a label right behind it. -/
def skipsNothing (p : Instr) (rest : List Instr) : Bool :=
  p.isCommandWith (fun c => !c.isCall && (c.isPlainJump || c.isBranch)) &&
    p.target?.any (labelAhead · rest)

/-- The notes that a change of some instructions leaves. -/
def notes (annotated : Bool) (old : List Instr) (reason : String) : List String :=
  if annotated then old.flatMap Instr.notes ++ [reason] else []

/-- Simplifies the jumps of a list; `pending` are the notes that its first instruction takes over
from a jump removed before it. -/
def runFrom (annotated : Bool) : Nat → List String → List Instr → Outcome
  | next, _, [] => ⟨[], next, false⟩
  | next, pending, p :: rest =>
    let p := p.annotate pending
    match inverted? p rest, rest with
    | some c, q :: after =>
      let branch := ((p.clone next).withCommand c).annotate
        (notes annotated [p, q] ("branch inverted: " ++ p.text))
      let tail := runFrom annotated (next + 1) [] after
      ⟨branch :: tail.code, tail.nextId, true⟩
    | _, rest =>
      if skipsNothing p rest then
        { runFrom annotated next
            (notes annotated [p] ("jump to the next instruction removed: " ++ p.text)) rest with
          changed := true }
      else
        let tail := runFrom annotated next [] rest
        { tail with code := p :: tail.code }

/-- Simplifies the jumps of a program. -/
def run (annotated : Bool) (next : Nat) (code : List Instr) : Outcome :=
  runFrom annotated next [] code

end Jumps

end MipsFlow
