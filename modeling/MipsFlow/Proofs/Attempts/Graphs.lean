import MipsFlow.Graph.Shape
import MipsFlow.Proofs.Attempts.Commands
import MipsFlow.Proofs.Linking

/-!
# Cutting and linking step by step

The graph of a program is built with places in three sequences: those where the blocks start, the
instructions between two of them, and the blocks that edges join. On the way the graph is drawn
once more for its shape, in a drawing that has each block once and no edge from a block to itself.
-/

namespace MipsFlow

namespace Attempt

variable {code : List Instr} {blocks : List Block} {b : Block} {g : Graph}

/-! ## Cutting -/

/-- The declared labels whose address an instruction takes. -/
def addressTaken (labels : List String) (p : Instr) : Attempt (List String) := do
  match p.content with
  | .directive text => return (Graph.symbolsIn text).filter labels.contains
  | .command c =>
    if (← target? c).isSome then return []
    else return (c.args.filterMap Graph.symbolOf?).filter labels.contains
  | .label _ | .comment _ _ => return []

@[simp] theorem addressTaken_eq (labels : List String) (p : Instr) :
    addressTaken labels p = pure (Graph.addressTaken labels p) := by
  unfold addressTaken Graph.addressTaken
  cases p.content with
  | command c =>
    simp only [target?_eq, pure_bind]
    split <;> rfl
  | _ => rfl

/-- The labels that have to start a block, and among them those whose address is taken. -/
def scan (code : List Instr) : Attempt (List String × List String) := do
  let targets ← code.mapM targetOf?
  let taken ← code.mapM (addressTaken (Graph.declared code))
  return (targets.filterMap id ++ taken.flatten, taken.flatten)

@[simp] theorem scan_eq (code : List Instr) :
    scan code = pure (Graph.pinnedLabels code, Graph.entryLabels code) := by
  unfold scan
  rw [mapM_eq fun p _ => targetOf?_eq p, pure_bind, mapM_eq fun p _ => addressTaken_eq _ p,
    pure_bind, List.filterMap_map]
  rfl

/-- Where the run behind a leader ends: at the next leader, or with the sequence. -/
def stopOf (code : List Instr) (leaders : List Nat) (i : Nat) : Attempt Nat :=
  if i + 1 < leaders.length then index leaders (i + 1) else return code.length

/-- The run that starts at a leader. -/
def runAt (code : List Instr) (leaders : List Nat) (i : Nat) : Attempt (List Instr) := do
  let start ← index leaders i
  let stop ← stopOf code leaders i
  slice code start stop

/-- The runs of a sequence between the positions that start a block. -/
def cutAt (code : List Instr) (leaders : List Nat) : Attempt (List (List Instr)) :=
  (List.range leaders.length).mapM (runAt code leaders)

theorem length_starts (k : Nat) (runs : List (List Instr)) :
    (Graph.starts k runs).length = runs.length := by
  induction runs generalizing k with
  | nil => rfl
  | cons run runs ih => simp [Graph.starts, ih]

/-- A run starts where those before it end. -/
theorem getElem?_starts {i : Nat} (k : Nat) (runs : List (List Instr)) (inside : i < runs.length) :
    (Graph.starts k runs)[i]? = some (k + (runs.take i).flatten.length) := by
  induction runs generalizing k i with
  | nil => simp at inside
  | cons run runs ih =>
    cases i with
    | zero => simp [Graph.starts]
    | succ i =>
      rw [Graph.starts, List.getElem?_cons_succ, ih _ (Nat.lt_of_succ_lt_succ inside)]
      simp [Nat.add_assoc]

theorem runAt_starts (runs : List (List Instr)) {i : Nat} (inside : i < runs.length) :
    runAt runs.flatten (Graph.starts 0 runs) i = pure runs[i] := by
  have start := index_eq (getElem?_starts 0 runs inside)
  have stop : stopOf runs.flatten (Graph.starts 0 runs) i =
      pure (runs.take (i + 1)).flatten.length := by
    unfold stopOf
    rw [length_starts]
    split
    · next more => rw [index_eq (getElem?_starts 0 runs more), Nat.zero_add]
    · next last => rw [List.take_of_length_le (by omega)]
  have front : (runs.take (i + 1)).flatten = (runs.take i).flatten ++ runs[i] := by
    rw [List.take_succ_eq_append_getElem inside, List.flatten_append, List.flatten_singleton]
  have whole : runs.flatten = (runs.take (i + 1)).flatten ++ (runs.drop (i + 1)).flatten := by
    rw [← List.flatten_append, List.take_append_drop]
  rw [runAt, start, pure_bind, stop, pure_bind, slice_eq]
  · rw [whole, List.take_left, front, Nat.zero_add, List.drop_left]
  · rw [front, List.length_append]
    omega
  · rw [whole, List.length_append]
    exact Nat.le_add_right _ _

/-- Cutting where the runs start gives the runs. -/
theorem cutAt_starts (runs : List (List Instr)) :
    cutAt runs.flatten (Graph.starts 0 runs) = pure runs := by
  have each : ∀ i ∈ List.range runs.length,
      runAt runs.flatten (Graph.starts 0 runs) i = pure (runs[i]?.getD []) := by
    intro i member
    have inside := List.mem_range.1 member
    rw [runAt_starts runs inside, List.getElem?_eq_getElem inside, Option.getD_some]
  unfold cutAt
  rw [length_starts, mapM_eq each]
  congr 1
  refine List.ext_getElem (by simp) fun i _ inside => ?_
  simp [List.getElem?_eq_getElem inside]

/-! ## Linking -/

/-- The label that leads a run. -/
def label? (code : List Instr) : Attempt (Option String) := do
  if code.isEmpty then return none else return (← index code 0).label?

@[simp] theorem label?_eq (b : Block) : label? b.code = pure b.label? := by
  unfold label? Block.label?
  cases b.code with
  | nil => rfl
  | cons p rest =>
    have first : index (p :: rest) 0 = pure p := index_eq rfl
    rw [first, pure_bind]
    rfl

/-- The blocks of a cut, without their edges. -/
def unlinked (entryNames : List String) (runs : List (List Instr)) : Attempt (List Block) :=
  runs.zipIdx.mapM fun (code, id) => do
    let label ← label? code
    return { id, code, entry := label.any entryNames.contains }

@[simp] theorem unlinked_eq (entryNames : List String) (runs : List (List Instr)) :
    unlinked entryNames runs = pure (Graph.unlinked entryNames runs) := by
  refine mapM_eq fun (code, id) _ => ?_
  have label := label?_eq { id, code }
  simp only at label
  simp only [label, pure_bind]

/-- The jump that ends a run. -/
def terminator? (code : List Instr) : Attempt (Option Instr) := do
  if code.isEmpty then return none
  else return some (← index code (code.length - 1)) |>.filter Instr.isJump

@[simp] theorem terminator?_eq (b : Block) : terminator? b.code = pure b.terminator? := by
  unfold terminator? Block.terminator?
  cases isLast : b.code.getLast? with
  | none =>
    rw [List.getLast?_eq_none_iff.1 isLast]
    rfl
  | some p =>
    have nonempty : b.code.isEmpty = false := by
      cases code : b.code with
      | nil => simp [code] at isLast
      | cons => rfl
    rw [List.getLast?_eq_getElem?] at isLast
    simp only [nonempty, Bool.false_eq_true, if_false, index_eq isLast, pure_bind]

/-- Where a jump may go. -/
def jumpTargets (blocks : List Block) (c : Command) : Attempt (List Nat) := do
  match ← target? c with
  | some label => return Graph.ledBy blocks label
  | none => if (← isIndirect c) && !c.isCall then return Graph.entries blocks else return []

@[simp] theorem jumpTargets_eq (blocks : List Block) (c : Command) :
    jumpTargets blocks c = pure (Graph.jumpTargets blocks c) := by
  unfold jumpTargets Graph.jumpTargets
  rw [target?_eq, pure_bind]
  cases c.target? with
  | some label => rfl
  | none =>
    simp only [isIndirect_eq, pure_bind]
    split <;> rfl

/-- Where control may go from the end of a block. -/
def transfers (blocks : List Block) (b : Block) : Attempt (List Nat) := do
  match (← terminator? b.code).bind Instr.command? with
  | none => return Graph.nextPlace blocks b.id
  | some c =>
    if ← isReturn c then return []
    else return (← jumpTargets blocks c) ++
      if c.isBranch || c.isCall then Graph.nextPlace blocks b.id else []

@[simp] theorem transfers_eq (blocks : List Block) (b : Block) :
    transfers blocks b = pure (Graph.transfers blocks b) := by
  unfold transfers Graph.transfers
  rw [terminator?_eq, pure_bind]
  cases b.terminator?.bind Instr.command? with
  | none => rfl
  | some c =>
    simp only [isReturn_eq, jumpTargets_eq, pure_bind]
    cases c.isReturn <;> rfl

/-- The block ends in a jump, other than a return, that goes to no block by its label. -/
def isUnresolved (blocks : List Block) (b : Block) : Attempt Bool := do
  match (← terminator? b.code).bind Instr.command? with
  | none => return false
  | some c => return !(← isReturn c) && ((← target? c).elim [] (Graph.ledBy blocks)).isEmpty

@[simp] theorem isUnresolved_eq (blocks : List Block) (b : Block) :
    isUnresolved blocks b = pure (Graph.isUnresolved blocks b) := by
  unfold isUnresolved Graph.isUnresolved
  rw [terminator?_eq, pure_bind]
  cases b.terminator?.bind Instr.command? with
  | none => rfl
  | some c =>
    simp only [isReturn_eq, target?_eq, pure_bind]
    rfl

/-- Joins two blocks. Both have to be there. -/
def addEdge (blocks : List Block) (source target : Nat) : Attempt Unit := do
  let _ ← index blocks source
  let _ ← index blocks target

theorem addEdge_eq {source target : Nat} (isSource : source < blocks.length)
    (isTarget : target < blocks.length) : addEdge blocks source target = pure () := by
  rw [addEdge, index_eq (List.getElem?_eq_getElem isSource),
    index_eq (List.getElem?_eq_getElem isTarget), pure_bind, pure_bind]

/-- A block with the edges to where control may go from its end. -/
def linkOut (blocks : List Block) (b : Block) : Attempt Block := do
  let succ ← transfers blocks b
  succ.forM (addEdge blocks b.id)
  let unresolved ← isUnresolved blocks b
  return { b with succ := succ.eraseDups, unresolved }

/-- Adds the edges and marks the blocks with an unknown destination. -/
def link (blocks : List Block) : Attempt (List Block) := do
  let linked ← blocks.mapM (linkOut blocks)
  return linked.map fun b =>
    { b with pred := (linked.filter fun a => a.succ.contains b.id).map Block.id }

theorem link_eq (placed : Graph.Placed blocks) : link blocks = pure (Graph.link blocks) := by
  have each : ∀ b ∈ blocks, linkOut blocks b = pure (Graph.linkOut blocks b) := by
    intro b member
    have isPlace : b.id < blocks.length := by
      obtain ⟨id, here⟩ := List.mem_iff_getElem?.1 member
      rw [placed id b here]
      exact (List.getElem?_eq_some_iff.1 here).1
    have edges : (Graph.transfers blocks b).forM (addEdge blocks b.id) = pure () :=
      forM_eq fun target transfer =>
        addEdge_eq isPlace (Graph.lt_length_of_mem_transfers placed transfer)
    rw [linkOut, transfers_eq, pure_bind, edges, pure_bind, isUnresolved_eq, pure_bind]
    rfl
  rw [link, mapM_eq each, pure_bind]
  rfl

/-- The graph of a sequence of instructions. -/
def build (code : List Instr) : Attempt Graph := do
  let (pins, entryNames) ← scan code
  let runs ← cutAt code (Graph.starts 0 (Graph.cut pins code))
  let blocks ← unlinked entryNames runs
  return ⟨← link blocks⟩

/-- Every sequence of instructions has a graph. -/
@[simp] theorem build_eq (code : List Instr) : build code = pure (Graph.build code) := by
  have cut := cutAt_starts (Graph.cut (Graph.pinnedLabels code) code)
  rw [Graph.flatten_cut] at cut
  simp only [build, scan_eq, pure_bind, cut, unlinked_eq, link_eq (Graph.unlinked_placed _ _)]
  rfl

/-! ## Drawing -/

/-- Adds a node to a drawing. -/
def addNode (nodes : List Nat) (id : Nat) : Attempt (List Nat) :=
  if nodes.contains id then throw (.repeatedNode id) else return id :: nodes

/-- Joins two nodes of a drawing. -/
def setEdge (source target : Nat) : Attempt Unit :=
  if source = target then throw (.selfEdge source) else return ()

/-- Draws a graph, without the edges from a block to itself. -/
def draw (g : Graph) : Attempt (List Nat) := do
  let nodes ← (g.blocks.map Block.id).foldlM addNode []
  g.blocks.forM fun b => (b.succ.filter (· ≠ b.id)).forM (setEdge b.id)
  return nodes

/-- The shape of a graph. What can be reached is counted in the drawing, from its first node. -/
def shape (g : Graph) : Attempt Graph.Shape := do
  if g.blocks.isEmpty then return g.shape
  else
    let nodes ← draw g
    if nodes.contains 0 then return g.shape else throw (.fault .missing)

/-- New nodes can be added one after the other. -/
theorem foldlM_addNode (ids nodes : List Nat) (fresh : ∀ id ∈ ids, id ∉ nodes)
    (distinct : ids.Nodup) : ids.foldlM addNode nodes = pure (ids.reverse ++ nodes) := by
  induction ids generalizing nodes with
  | nil => rfl
  | cons id ids ih =>
    obtain ⟨here, later⟩ := List.forall_mem_cons.1 fresh
    obtain ⟨once, others⟩ := List.nodup_cons.1 distinct
    have isNew : addNode nodes id = pure (id :: nodes) := if_neg (by simpa using here)
    rw [List.foldlM_cons, isNew, pure_bind, ih (id :: nodes) ?_ others]
    · simp
    · intro other member
      rintro (_ | ⟨_, inside⟩)
      · exact once member
      · exact later other member inside

theorem shape_eq (placed : Graph.Placed g.blocks) : shape g = pure g.shape := by
  unfold shape
  split
  · rfl
  · next nonempty =>
    have nodes : (g.blocks.map Block.id).foldlM addNode [] =
        (pure (List.range g.blocks.length).reverse : Attempt (List Nat)) := by
      rw [placed.ids, foldlM_addNode _ _ (by simp) List.nodup_range, List.append_nil]
    have edges : (g.blocks.forM fun b => (b.succ.filter (· ≠ b.id)).forM (setEdge b.id)) =
        (pure () : Attempt Unit) :=
      forM_eq fun b _ => forM_eq fun target member =>
        if_neg fun same => by simp [← same] at member
    have first : (List.range g.blocks.length).reverse.contains 0 = true := by
      have positive : 0 < g.blocks.length := by
        rw [List.isEmpty_iff] at nonempty
        exact List.length_pos_iff.2 nonempty
      simpa using positive
    rw [draw, nodes, pure_bind, edges, pure_bind, pure_bind, if_pos first]

end Attempt

end MipsFlow
