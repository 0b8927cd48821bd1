import MipsFlow.Optimizer.View

/-!
# Copy propagation

After a copy, commands read the source instead of the destination, for as long as both keep their
values: to the end of the block, and on into a successor if the copy is known to hold on every
way into it.
-/

namespace MipsFlow

namespace Propagation

/-- What became of the instructions behind a copy. -/
structure Spread where
  code : List Instr
  /-- The number of operands that read the source now. -/
  count : Nat
  /-- The copy still holds behind the instructions. -/
  holds : Bool
deriving DecidableEq, Repr

/-- Puts an instruction before a spread. -/
def Spread.push (s : Spread) (p : Instr) (count : Nat) : Spread :=
  { s with code := p :: s.code, count := count + s.count }

/-- Reads the source of a copy in place of its destination, up to the first instruction that may
write either. A foreign command that involves the copy is left as it is. -/
def spread (annotated : Bool) (c : Copy) (note : String) : List Instr → Spread
  | [] => ⟨[], 0, true⟩
  | p :: rest =>
    if !p.isCommand then (spread annotated c note rest).push p 0
    else if p.isCommandWith Command.isForeign &&
        (p.mayWrite c.dst || p.mayWrite c.src || p.reads c.dst) then ⟨p :: rest, 0, false⟩
    else
      let count := p.readSites.countP (·.reg = c.dst)
      let renamed := p.renameReads c.dst c.src
      let q := if count ≠ 0 && annotated then renamed.note note else renamed
      if q.mayWrite c.dst || q.mayWrite c.src then ⟨q :: rest, count, false⟩
      else (spread annotated c note rest).push q count

/-- A graph in which copies are being propagated from one block. -/
structure State where
  graph : Graph
  /-- Something has changed. -/
  changed : Bool := false
  /-- Another block has changed. -/
  elsewhere : Bool := false

/-- Carries a copy made in the block `source` by the instruction `p` into a successor. -/
def enter (annotated : Bool) (f : Facts) (source : Nat) (p : Instr) (c : Copy) (s : State)
    (id : Nat) : State :=
  match s.graph.block? id with
  | none => s
  | some b =>
    if f.available b c then
      let note := "copy propagated from bb_" ++ Text.decimalNat source ++ ": " ++ p.text
      let spread := spread annotated c note b.code
      if spread.count = 0 then s
      else ⟨s.graph.setCode id spread.code, true, true⟩
    else s

/-- Propagates the copy at position `i` of a block, if there is one. -/
def propagate (annotated : Bool) (f : Facts) (id : Nat) (s : State) (i : Nat) : State :=
  match s.graph.block? id with
  | none => s
  | some b =>
    match b.code[i]? with
    | none => s
    | some p =>
      match Copy.of? f.reserved p with
      | none => s
      | some c =>
        let spread := spread annotated c ("copy propagated: " ++ p.text) (b.code.drop (i + 1))
        let s := { s with
          graph := s.graph.setCode id (b.code.take (i + 1) ++ spread.code)
          changed := s.changed || spread.count ≠ 0 }
        if spread.holds && f.reaches b p then
          b.succ.foldl (enter annotated f id p c) s
        else s

/-- Propagates every copy of a block, in order. -/
def run (annotated : Bool) (f : Facts) (g : Graph) (id : Nat) : State :=
  match g.block? id with
  | none => { graph := g }
  | some b => (List.range b.code.length).foldl (propagate annotated f id) { graph := g }

end Propagation

end MipsFlow
