import MipsFlow.Optimizer.Exhaust
import MipsFlow.Optimizer.View

/-!
# Redundancy elimination

Rules that look at an instruction and the one or two behind it, and replace them by fewer or
simpler ones. The first rule that applies to the first instruction that one applies to is used,
and then the search starts again. Every change makes the block shorter, or turns a shift into a
copy, so the search ends.
-/

namespace MipsFlow

namespace Redundancy

/-- A replacement for the first `count` instructions of a list. -/
structure Substitution where
  count : Nat
  repl : List Instr
  note : String
  nextId : Nat
deriving DecidableEq, Repr

/-- A rule inspects a command, with the instructions behind it and the next free identity. -/
abbrev Rule := View → Nat → Instr → Command → List Instr → Option Substitution

/-- The load that undoes a store. -/
def matchingLoad? : Opcode → Option Opcode
  | .sw => some .lw
  | .sd => some .ld
  | .sS => some .lS
  | .sD => some .lD
  | .swc1 => some .lwc1
  | _ => none

/-- A copy of a register to itself goes. -/
def dropSelfCopy : Rule := fun _ next p c _ =>
  match c.copy? with
  | some (a, b) =>
    if a = b then some ⟨1, [], "redundant move removed: " ++ p.text, next⟩ else none
  | none => none

/-- In `move a, b; op a, a, ...` the operation reads `b` directly, if it reads `a` only there. -/
def readThroughCopy : Rule := fun _ next p c rest =>
  match c.copy?, rest with
  | some (a, b), q :: _ =>
    match q.command? with
    | some d =>
      if !d.isForeign && !d.isJump && d.args[0]? = some (.reg a) && d.args[1]? = some (.reg a) &&
          d.defs.contains a && d.readSites.filter (·.reg = a) = [⟨1, a⟩] then
        some ⟨2, [q.withCommand { d with args := d.args.set 1 (.reg b) }],
          "move folded: " ++ p.text, next⟩
      else none
    | none => none
  | _, _ => none

/-- In `op t, ...; move a, t; call` the operation writes the argument register `a` directly, if
`t` is not needed any more. -/
def computeArgument : Rule := fun v next p c rest =>
  match c.args, rest with
  | .reg t :: args, q :: r :: rest =>
    match q.copy?, r.command? with
    | some (a, s), some call =>
      if c.isPure && c.defs = [t] && s = t && call.isCall && a.isArgument && a ≠ t &&
          !v.reserved.contains a && v.dead (r :: rest) t then
        some ⟨2, [p.withCommand { c with args := .reg a :: args }],
          "argument forwarded: " ++ q.text, next⟩
      else none
    | _, _ => none
  | _, _ => none

/-- In `move a, b; move b, a` the second copy goes. -/
def dropCopyBack : Rule := fun _ next p c rest =>
  match c.copy?, rest with
  | some (a, b), q :: _ =>
    if q.copy? = some (b, a) then some ⟨2, [p], "redundant move removed: " ++ q.text, next⟩
    else none
  | _, _ => none

/-- A load right behind a store of the same register to the same place goes. -/
def dropReload : Rule := fun _ next p c rest =>
  match c.op?.bind matchingLoad?, c.args, rest with
  | some load, [_, .mem _ _], q :: _ =>
    match q.command? with
    | some d =>
      if d.op? = some load && d.args = c.args then
        some ⟨2, [p], "redundant load removed: " ++ q.text, next⟩
      else none
    | none => none
  | _, _, _ => none

/-- A shift by zero goes if it is into the same register, and is a copy otherwise. Into the zero
register it is the customary idle command, and stays. -/
def simplifyShift : Rule := fun _ next p c _ =>
  match c.isShift, c.args with
  | true, [.reg a, .reg b, .imm n] =>
    if n ≠ 0 || a.isZero then none
    else if a = b then some ⟨1, [], "shift by zero removed: " ++ p.text, next⟩
    else some ⟨1, [.ofCommand next (.copy a b)], "shift by zero: " ++ p.text, next + 1⟩
  | _, _ => none

/-- In `addiu a, a, n; load d, m(a)` the increment moves into the offset, if the incremented `a`
is overwritten by the load or not needed any more. -/
def foldOffset : Rule := fun v next p c rest =>
  match c.args, rest with
  | [.reg a, .reg b, .imm n], q :: rest =>
    match q.command? with
    | some d =>
      match d.args with
      | [dst, .mem (.number m) base] =>
        if (c.op? = some .addu || c.op? = some .addiu) && a = b && d.readsMemory && base = a &&
            fitsSigned16 (m + n).toInt && (dst.isReg a || v.dead rest a) then
          some ⟨2, [q.withCommand { d with args := [dst, .mem (.number (m + n)) a] }],
            "offset folded: " ++ p.text, next⟩
        else none
      | _ => none
    | none => none
  | _, _ => none

/-- The rules, in the order in which they are tried. -/
def rules : List Rule :=
  [dropSelfCopy, readThroughCopy, computeArgument, dropCopyBack, dropReload, simplifyShift,
    foldOffset]

/-- The first rule that applies at the beginning of a list. -/
def substitutionHere? (v : View) (next : Nat) : List Instr → Option Substitution
  | [] => none
  | p :: rest => p.command?.bind fun c => rules.findSome? fun rule => rule v next p c rest

/-- The first place where a rule applies. -/
def firstSubstitution? (v : View) (next : Nat) : List Instr → Option (Nat × Substitution)
  | [] => none
  | p :: rest =>
    match substitutionHere? v next (p :: rest) with
    | some w => some (0, w)
    | none => (firstSubstitution? v next rest).map fun (i, w) => (i + 1, w)

/-- One change. -/
def step (v : View) (b : BlockCode) : Option BlockCode :=
  (firstSubstitution? v b.nextId b.code).map fun (i, w) =>
    { code := Edit.splice v.annotated b.code i w.count w.repl w.note, nextId := w.nextId }

/-- All changes. Each of the instructions goes, or ceases to be a shift, at most once. -/
def run (v : View) (b : BlockCode) : BlockCode := exhaust (step v) (2 * b.code.length) b

end Redundancy

end MipsFlow
