import MipsFlow.Graph

/-!
# Building the graph of a program

A block starts at the first instruction, behind every jump, and at every label that control can
come to in another way than from the instruction before it: the *pinned* labels. These are the
targets of direct jumps, and the labels whose address is taken, because a directive or an operand
names them. The latter lead the blocks that indirect jumps may go to.
-/

namespace MipsFlow

namespace Graph

/-! ## Pinned labels -/

/-- The labels that a sequence declares. -/
def declared (code : List Instr) : List String := code.filterMap Instr.label?

/-- A character of a symbol in a directive. -/
def isSymbolChar (c : Char) : Bool := c.isAlphanum || c = '_' || c = '$' || c = '.'

/-- The maximal runs of symbol characters in a text; `run` holds the current one backwards. -/
def symbolRuns : List Char → List Char → List String
  | run, [] => if run.isEmpty then [] else [String.ofList run.reverse]
  | run, c :: cs =>
    if isSymbolChar c then symbolRuns (c :: run) cs
    else if run.isEmpty then symbolRuns [] cs
    else String.ofList run.reverse :: symbolRuns [] cs

/-- The symbols that a directive's text names. -/
def symbolsIn (text : String) : List String := symbolRuns [] text.toList

/-- The text of an operand that is a symbol. -/
def symbolOf? : Operand → Option String
  | .sym text => some text
  | _ => none

/-- The declared labels whose address an instruction takes. A direct jump takes none. -/
def addressTaken (labels : List String) (p : Instr) : List String :=
  match p.content with
  | .directive text => (symbolsIn text).filter labels.contains
  | .command c =>
    if c.target?.isSome then [] else (c.args.filterMap symbolOf?).filter labels.contains
  | .label _ | .comment _ _ => []

/-- The labels whose address is taken somewhere in the sequence. -/
def entryLabels (code : List Instr) : List String :=
  code.flatMap (addressTaken (declared code))

/-- The labels that have to start a block. -/
def pinnedLabels (code : List Instr) : List String :=
  code.filterMap Instr.target? ++ entryLabels code

/-! ## Cutting -/

/-- The instruction is a pinned label. -/
def isPinned (pins : List String) (p : Instr) : Bool := p.label?.any pins.contains

/-- Cuts a sequence behind every jump and before every pinned label. -/
def cut (pins : List String) : List Instr → List (List Instr)
  | [] => []
  | p :: rest =>
    match cut pins rest with
    | [] => [[p]]
    | run :: runs =>
      if p.isJump || run.head?.any (isPinned pins) then [p] :: run :: runs
      else (p :: run) :: runs

/-- The positions where the runs start, the first of them at `position`. -/
def starts (position : Nat) : List (List Instr) → List Nat
  | [] => []
  | run :: runs => position :: starts (position + run.length) runs

/-- The positions that start a block. -/
def leaders (code : List Instr) : List Nat := starts 0 (cut (pinnedLabels code) code)

/-! ## Linking -/

/-- The places of the blocks that a label leads. -/
def ledBy (blocks : List Block) (label : String) : List Nat :=
  (blocks.filter fun b => b.label? = some label).map Block.id

/-- The places of the blocks that indirect jumps may go to. -/
def entries (blocks : List Block) : List Nat := (blocks.filter Block.entry).map Block.id

/-- The place after `id`, if there is such a block. -/
def nextPlace (blocks : List Block) (id : Nat) : List Nat :=
  if id + 1 < blocks.length then [id + 1] else []

/-- Where a jump may go: a direct one to every block that its label leads, an indirect one to
every entry, unless it is a call. A return leaves the program. -/
def jumpTargets (blocks : List Block) (c : Command) : List Nat :=
  match c.target? with
  | some label => ledBy blocks label
  | none => if c.isIndirect && !c.isCall then entries blocks else []

/-- Where control may go from the end of a block, possibly with repetitions. -/
def transfers (blocks : List Block) (b : Block) : List Nat :=
  match b.terminator?.bind Instr.command? with
  | none => nextPlace blocks b.id
  | some c =>
    if c.isReturn then []
    else
      jumpTargets blocks c ++ if c.isBranch || c.isCall then nextPlace blocks b.id else []

/-- The block ends in a jump, other than a return, that goes to no block by its label. -/
def isUnresolved (blocks : List Block) (b : Block) : Bool :=
  (b.terminator?.bind Instr.command?).any fun c =>
    !c.isReturn && (c.target?.elim [] (ledBy blocks)).isEmpty

/-- The blocks of a cut, without their edges. -/
def unlinked (entryNames : List String) (runs : List (List Instr)) : List Block :=
  runs.zipIdx.map fun (code, id) =>
    let b : Block := { id, code }
    { b with entry := b.label?.any entryNames.contains }

/-- Adds the edges and marks the blocks with an unknown destination. -/
def link (blocks : List Block) : List Block :=
  let linked := blocks.map fun b =>
    { b with succ := (transfers blocks b).eraseDups, unresolved := isUnresolved blocks b }
  linked.map fun b =>
    { b with pred := (linked.filter fun a => a.succ.contains b.id).map Block.id }

/-- The graph of a sequence of instructions. -/
def build (code : List Instr) : Graph :=
  ⟨link (unlinked (entryLabels code) (cut (pinnedLabels code) code))⟩

/-- The labels that lead a block, each with the places of its blocks. -/
def labelPlaces (g : Graph) : List (String × List Nat) :=
  (g.blocks.filterMap Block.label?).eraseDups.map fun name => (name, ledBy g.blocks name)

end Graph

end MipsFlow
