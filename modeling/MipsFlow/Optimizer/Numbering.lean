import MipsFlow.Instr.Roles

/-!
# Value numbering

In straight-line code every value gets a number: a literal, a symbol, what a register holds on
entry, and what a command computes. Two commands get the same number when they apply the same
operation to operands with the same numbers, so equal numbers mean equal values.
-/

namespace MipsFlow

/-- What identifies a value that can be recognised again. -/
inductive ValueKey where
  | literal (value : Int64)
  | symbol (text : String)
  /-- An operation on numbered values. -/
  | result (op : Opcode) (args : List Nat)
deriving DecidableEq, Repr

/-- The numbers given so far, and the number that each register holds. -/
structure Numbering where
  /-- The last number given. -/
  last : Nat
  keys : List (ValueKey × Nat)
  regs : List (Reg × Nat)
deriving DecidableEq, Repr

/-- The command computes a value that can be shared: it writes exactly its first operand, which
it does not read, and does nothing else. -/
def Command.isShareable (c : Command) : Bool :=
  c.isArith && c.isPure && 2 ≤ c.args.length &&
    match c.args with
    | .reg dst :: _ => !dst.isZero && c.defs = [dst] && !c.readSites.any (·.index = 0)
    | _ => false

namespace Numbering

/-- Before any code the zero register holds the literal zero, and nothing else is known. -/
def initial : Numbering := ⟨1, [(.literal 0, 1)], [(Reg.zero, 1)]⟩

/-- The number of a value that can be recognised, a new one if it is seen for the first time. -/
def ofKey (n : Numbering) (key : ValueKey) : Nat × Numbering :=
  match n.keys.lookup key with
  | some number => (number, n)
  | none => (n.last + 1, { n with last := n.last + 1, keys := (key, n.last + 1) :: n.keys })

/-- Lets a register hold a number. -/
def setReg (n : Numbering) (r : Reg) (number : Nat) : Numbering :=
  { n with regs := (r, number) :: n.regs }

/-- Forgets what some registers hold; the zero register keeps its value. -/
def forget (n : Numbering) (rs : List Reg) : Numbering :=
  { n with regs := n.regs.filter fun (r, _) => r.isZero || !rs.contains r }

/-- The number that a register holds, a new one if nothing is known about it. -/
def ofReg (n : Numbering) (r : Reg) : Nat × Numbering :=
  match n.regs.lookup r with
  | some number => (number, n)
  | none => (n.last + 1, { n with last := n.last + 1 }.setReg r (n.last + 1))

/-- The number of an operand's value. Memory has none. -/
def ofOperand (n : Numbering) : Operand → Option Nat × Numbering
  | .imm value => let (number, n) := n.ofKey (.literal value); (some number, n)
  | .sym text => let (number, n) := n.ofKey (.symbol text); (some number, n)
  | .reg r => let (number, n) := n.ofReg r; (some number, n)
  | .mem _ _ => (none, n)

/-- The numbers of several operands, up to the first without one. -/
def ofOperands (n : Numbering) : List Operand → Option (List Nat) × Numbering
  | [] => (some [], n)
  | o :: rest =>
    match n.ofOperand o with
    | (none, n) => (none, n)
    | (some number, n) =>
      let (numbers, n) := n.ofOperands rest
      (numbers.map (number :: ·), n)

/-- The number of the value that a shareable command computes. -/
def ofCommand (n : Numbering) (c : Command) : Option Nat × Numbering :=
  match c.op?, n.ofOperands (c.args.drop 1) with
  | some op, (some numbers, n) =>
    let (number, n) := n.ofKey (.result op (if c.has .commutes then numbers.mergeSort else numbers))
    (some number, n)
  | _, (_, n) => (none, n)

/-- Follows an instruction. The number of the value that it computes is given if the value can be
shared; a copy makes its destination hold the number of its source. -/
def follow (n : Numbering) (p : Instr) : Option Nat × Numbering :=
  match p.command? with
  | none => (none, n)
  | some c =>
    let (number, n) := if c.isShareable then n.ofCommand c else (none, n)
    let n := n.forget c.clobbers
    match number, c.args, c.copy? with
    | some number, .reg dst :: _, _ => (some number, n.setReg dst number)
    | _, _, some (dst, src) =>
      if dst.isZero then (none, n)
      else
        let (held, n) := n.ofReg src
        (none, n.setReg dst held)
    | _, _, none => (none, n)

/-- Follows a sequence, giving the number of each instruction. -/
def followAll (n : Numbering) : List Instr → List (Option Nat) × Numbering
  | [] => ([], n)
  | p :: rest =>
    let (number, n) := n.follow p
    let (numbers, n) := n.followAll rest
    (number :: numbers, n)

end Numbering

end MipsFlow
