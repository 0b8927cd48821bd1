import MipsFlow.Optimizer.Exhaust
import MipsFlow.Optimizer.Numbering
import MipsFlow.Optimizer.View

/-!
# Common subexpression elimination

A value that several commands of a block compute is computed once, right before the first of them,
into a scratch register that is free as long as it is needed; the commands become copies of that
register. Each such step leaves fewer computations in the block.
-/

namespace MipsFlow

namespace Sharing

/-- The positions of the commands that compute each shareable value, by the order in which the
values first appear. Values that go to reserved registers are left alone. -/
def occurrences (v : View) (code : List Instr) : List (List Nat) :=
  let numbered := (code.zip (Numbering.initial.followAll code).1).zipIdx.filterMap
    fun ((p, number), i) =>
      match number, p.command?.map Command.args with
      | some number, some (.reg dst :: _) =>
        if v.reserved.contains dst then none else some (number, i)
      | _, _ => none
  (numbered.map (·.1)).eraseDups.map fun number =>
    (numbered.filter (·.1 = number)).map (·.2)

/-- The register is free from before position `first` until behind position `last`. -/
def isFree (v : View) (code : List Instr) (first last : Nat) (r : Reg) : Bool :=
  !v.reserved.contains r && v.dead (code.drop first) r &&
    !((code.drop first).take (last + 1 - first)).any (·.mayWrite r)

/-- The first scratch register that is free for the positions from `first` to `last`. -/
def scratch? (v : View) (code : List Instr) (first last : Nat) : Option Reg :=
  Reg.scratch.find? (isFree v code first last)

/-- The command with another destination. -/
def redirect (p : Instr) (dst : Reg) : Instr :=
  match p.command? with
  | some c => p.withCommand { c with args := c.args.set 0 (.reg dst) }
  | none => p

/-- The copy that takes the place of a command that computed the value in `t`. -/
def replaceByCopy (v : View) (t : Reg) (id : Nat) (p : Instr) : Instr :=
  match p.command?.map Command.args with
  | some (.reg dst :: _) =>
    v.succeed p (.ofCommand id (.copy dst t)) ("common subexpression: " ++ p.text)
  | _ => p

/-- The block with the value at the positions `places` computed once into `t`. The computation
gets the identity `next`, and the copies the following ones, the last copy first. -/
def hoist (v : View) (next : Nat) (t : Reg) (places : List Nat) (code : List Instr) : List Instr :=
  code.zipIdx.flatMap fun (p, i) =>
    match places.idxOf? i with
    | none => [p]
    | some j =>
      let copy := replaceByCopy v t (next + (places.length - j)) p
      if j = 0 then
        [v.noted (redirect (p.clone next) t) ("common subexpression hoisted into " ++ t.name), copy]
      else [copy]

/-- Shares the value at some positions, if there are several and a register is free. -/
def share? (v : View) (b : BlockCode) (places : List Nat) : Option BlockCode :=
  match places with
  | first :: second :: more =>
    let last := (second :: more).getLast (List.cons_ne_nil second more)
    (scratch? v b.code first last).map fun t =>
      { code := hoist v b.nextId t places b.code
        nextId := b.nextId + places.length + 1 }
  | _ => none

/-- Shares the first value that can be shared. -/
def step (v : View) (b : BlockCode) : Option BlockCode :=
  (occurrences v b.code).findSome? (share? v b)

/-- Shares all values. -/
def run (v : View) (b : BlockCode) : BlockCode := exhaust (step v) b.code.length b

end Sharing

end MipsFlow
