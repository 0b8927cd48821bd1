import MipsFlow.Proofs.Attempts.Folding
import MipsFlow.Proofs.PropagationPass

/-!
# Propagating copies place by place

Copy propagation changes the operands of instructions where they stand, in the block of the copy and
in its successors. Nothing moves, so every place stays inside its block (`SamePlaces`), and a block
and its successors stay inside the graph and the facts.
-/

namespace MipsFlow

open Propagation (Spread State)

/-- The second graph differs in the instructions at the places of its blocks only. -/
structure Graph.SamePlaces (g g' : Graph) : Prop where
  shape : g.SameShape g'
  length : ∀ {id : Nat} {b b' : Block}, g.block? id = some b → g'.block? id = some b' →
    b'.code.length = b.code.length

namespace Graph.SamePlaces

variable {g g' : Graph} {id : Nat} {b : Block} {code : List Instr}

theorem refl (g : Graph) : g.SamePlaces g := by
  refine ⟨.refl g, fun here there => ?_⟩
  cases here.symm.trans there
  rfl

theorem setCode (same : g.SamePlaces g') (here : g'.block? id = some b)
    (length : code.length = b.code.length) : g.SamePlaces (g'.setCode id code) := by
  refine ⟨same.shape.trans (.setCode code), fun isOld isNew => ?_⟩
  rcases Graph.block?_setCode_cases here isNew with ⟨rfl, rfl⟩ | ⟨-, other⟩
  · exact length.trans (same.length isOld here)
  · exact same.length isOld other

end Graph.SamePlaces

namespace Attempt

variable {annotated : Bool} {c : Copy} {note : String} {p : Instr} {f : Facts} {g : Graph}

/-! ## Reading through a copy -/

/-- Nothing is known about what the instruction does. -/
def isForeignOf (p : Instr) : Attempt Bool := ask false isForeign p

@[simp] theorem isForeignOf_eq (p : Instr) :
    isForeignOf p = pure (p.isCommandWith Command.isForeign) := by
  rw [isForeignOf, ask_eq isForeign_eq, Instr.isCommandWith]
  cases p.command? <;> rfl

/-- Reads `target` wherever the instruction read `source`. -/
def renameReadsOf (p : Instr) (source target : Reg) : Attempt Instr := do
  match p.command? with
  | some c => return p.withCommand (← renameReads c source target)
  | none => return p

@[simp] theorem renameReadsOf_eq (p : Instr) (source target : Reg) :
    renameReadsOf p source target = pure (p.renameReads source target) := by
  unfold renameReadsOf Instr.renameReads
  cases p.command? with
  | none => rfl
  | some c => simp only [renameReads_eq, pure_bind]

/-- Reads the source of a copy in place of its destination at one place, unless the copy ends
there. -/
def spreadNext (annotated : Bool) (c : Copy) (note : String) :
    Nat × List Instr × Nat → Attempt ((Nat × List Instr × Nat) ⊕ Spread) :=
  fun (i, code, count) => do
    if i < code.length then
      let p ← index code i
      let written ← clobbersOf p
      if !p.isCommand then return .inl (i + 1, code, count)
      else if (← isForeignOf p) && (written.contains c.dst || written.contains c.src ||
          (← usesOf p).contains c.dst) then return .inr ⟨code, count, false⟩
      else
        let reads := (← readSitesOf p).countP (·.reg = c.dst)
        let q ← renameReadsOf p c.dst c.src
        let q := if reads ≠ 0 && annotated then q.note note else q
        let code ← store code i q
        let written ← clobbersOf q
        if written.contains c.dst || written.contains c.src then
          return .inr ⟨code, count + reads, false⟩
        else return .inl (i + 1, code, count + reads)
    else return .inr ⟨code, count, true⟩

/-- Reads the source of a copy in place of its destination, from a place on. -/
def spread (annotated : Bool) (c : Copy) (note : String) (code : List Instr) (start : Nat) :
    Attempt Spread :=
  loop (spreadNext annotated c note) (start, code, 0)

/-- One turn goes by what is in front of it: the instruction at the place. -/
theorem spreadNext_eq (annotated : Bool) (c : Copy) (note : String) (done : List Instr) (p : Instr)
    (rest : List Instr) (count : Nat) :
    spreadNext annotated c note (done.length, done ++ p :: rest, count) =
      if !p.isCommand then pure (.inl (done.length + 1, done ++ p :: rest, count))
      else if p.isCommandWith Command.isForeign &&
          (p.mayWrite c.dst || p.mayWrite c.src || p.reads c.dst) then
        pure (.inr ⟨done ++ p :: rest, count, false⟩)
      else if (Propagation.reread annotated c note p).mayWrite c.dst ||
          (Propagation.reread annotated c note p).mayWrite c.src then
        pure (.inr ⟨done ++ Propagation.reread annotated c note p :: rest,
          count + p.readSites.countP (·.reg = c.dst), false⟩)
      else pure (.inl (done.length + 1, done ++ Propagation.reread annotated c note p :: rest,
        count + p.readSites.countP (·.reg = c.dst))) := by
  have inside : done.length < (done ++ p :: rest).length := by simp
  simp only [spreadNext, if_pos inside, index_middle, store_middle, pure_bind, clobbersOf_eq,
    isForeignOf_eq, usesOf_eq, readSitesOf_eq, renameReadsOf_eq]
  rfl

theorem spreadNext_from (annotated : Bool) (c : Copy) (note : String) (done rest : List Instr)
    (count : Nat) : loop (spreadNext annotated c note) (done.length, done ++ rest, count) =
      pure ⟨done ++ (Propagation.spread annotated c note rest).code,
        count + (Propagation.spread annotated c note rest).count,
        (Propagation.spread annotated c note rest).holds⟩ := by
  induction rest generalizing done count with
  | nil =>
    refine loop_done ?_
    simp [spreadNext, Propagation.spread]
  | cons p rest ih =>
    have turned := spreadNext_eq annotated c note done p rest count
    have onward (q : Instr) (count : Nat) :
        loop (spreadNext annotated c note) (done.length + 1, done ++ q :: rest, count) =
          pure ⟨done ++ q :: (Propagation.spread annotated c note rest).code,
            count + (Propagation.spread annotated c note rest).count,
            (Propagation.spread annotated c note rest).holds⟩ := by
      have behind := ih (done ++ [q]) count
      rwa [List.length_append, List.length_singleton, List.append_assoc, List.append_assoc]
        at behind
    cases command : p.command? with
    | none =>
      have isCommand : p.isCommand = false := by simp [Instr.isCommand, command]
      rw [isCommand] at turned
      rw [loop_next turned, onward, Propagation.spread_cons_of_none command]
      simp [Spread.push]
    | some d =>
      have isCommand : p.isCommand = true := by simp [Instr.isCommand, command]
      have foreign : p.isCommandWith Command.isForeign = d.isForeign :=
        Instr.isCommandWith_of_command command _
      rw [isCommand, foreign, Bool.not_true, if_neg Bool.false_ne_true] at turned
      rw [Propagation.spread_cons d command]
      split
      · next aside =>
        rw [if_pos aside] at turned
        exact loop_done turned
      · next aside =>
        rw [if_neg aside] at turned
        split
        · next ends =>
          rw [if_pos ends] at turned
          exact loop_done turned
        · next goesOn =>
          rw [if_neg goesOn] at turned
          rw [loop_next turned, onward]
          simp [Spread.push, Nat.add_assoc]

theorem spread_eq (annotated : Bool) (c : Copy) (note : String) {code : List Instr} {start : Nat}
    (inside : start ≤ code.length) :
    spread annotated c note code start =
      pure ⟨code.take start ++ (Propagation.spread annotated c note (code.drop start)).code,
        (Propagation.spread annotated c note (code.drop start)).count,
        (Propagation.spread annotated c note (code.drop start)).holds⟩ := by
  have behind := spreadNext_from annotated c note (code.take start) (code.drop start) 0
  rwa [List.length_take_of_le inside, List.take_append_drop, Nat.zero_add] at behind

/-! ## Into the successors -/

/-- Carries a copy made in the block `source` by the instruction `p` into a successor. -/
def enter (annotated : Bool) (f : Facts) (source : Nat) (p : Instr) (c : Copy) (s : State)
    (id : Nat) : Attempt State := do
  let b ← index s.graph.blocks id
  if ← available f b c then
    let note := "copy propagated from bb_" ++ Text.decimalNat source ++ ": " ++ p.text
    let spread ← spread annotated c note b.code 0
    if spread.count = 0 then return s
    else return ⟨s.graph.setCode id spread.code, true, true⟩
  else return s

theorem enter_eq {s : State} {source id : Nat} (regular : g.Regular) (spans : f.Spans g)
    (same : g.SamePlaces s.graph) (inside : id < g.size) :
    enter annotated f source p c s id = pure (Propagation.enter annotated f source p c s id) ∧
      g.SamePlaces (Propagation.enter annotated f source p c s id).graph := by
  obtain ⟨b, here⟩ := Graph.block?_of_lt_size (same.shape.size_eq.symm ▸ inside)
  have place : b.id = id := (same.shape.regular regular).place here
  have known : b.id < f.copies.entry.length := by rw [place, spans.copiesEntry]; exact inside
  constructor
  · rw [enter, index_eq here, pure_bind, available_eq known, pure_bind]
    unfold Propagation.enter
    rw [here]
    simp only [spread_eq annotated c _ (Nat.zero_le b.code.length), pure_bind, List.take_zero,
      List.drop_zero, List.nil_append]
    split
    · exact (apply_ite pure _ _ _).symm
    · rfl
  · rcases Propagation.enter_cases annotated f source p c s id with
      unchanged | ⟨b', note, there, isNew⟩
    · rwa [unchanged]
    · rw [isNew]
      exact same.setCode there (Propagation.spread_rereads annotated c note b'.code).length_eq

/-! ## The pass -/

/-- Propagates the copy at a place of a block, if there is one. -/
def propagate (annotated : Bool) (f : Facts) (id : Nat) (s : State) (i : Nat) : Attempt State := do
  let b ← index s.graph.blocks id
  let p ← index b.code i
  match ← copyFact f.reserved p with
  | none => return s
  | some c =>
    let spread ← spread annotated c ("copy propagated: " ++ p.text) b.code (i + 1)
    let s := { s with
      graph := s.graph.setCode id spread.code
      changed := s.changed || spread.count ≠ 0 }
    if spread.holds && (← reaches f b p) then b.succ.foldlM (enter annotated f id p c) s
    else return s

theorem propagate_eq (annotated : Bool) {s : State} {id i : Nat} {b : Block}
    (regular : g.Regular) (spans : f.Spans g) (same : g.SamePlaces s.graph)
    (here : g.block? id = some b) (inside : i < b.code.length) :
    propagate annotated f id s i = pure (Propagation.propagate annotated f id s i) ∧
      g.SamePlaces (Propagation.propagate annotated f id s i).graph := by
  obtain ⟨code, there⟩ := same.shape.block? here
  have length : code.length = b.code.length := same.length here there
  have bound : i < code.length := length ▸ inside
  have isHere : code[i]? = some code[i] := List.getElem?_eq_getElem bound
  have known : b.id < f.reach.exit.length := by
    rw [regular.place here, spans.reachExit]
    exact Graph.lt_size_of_block? here
  have spreads (c : Copy) := spread_eq annotated c ("copy propagated: " ++ code[i].text)
    (Nat.succ_le_of_lt bound)
  unfold propagate Propagation.propagate
  rw [index_eq there, pure_bind, index_eq isHere, pure_bind, copyFact_eq, pure_bind, there]
  simp only [isHere]
  cases Copy.of? f.reserved code[i] with
  | none => exact ⟨rfl, same⟩
  | some c =>
    have rereads := Propagation.spread_rereads annotated c ("copy propagated: " ++ code[i].text)
      (code.drop (i + 1))
    have spreadSame : g.SamePlaces (s.graph.setCode id (code.take (i + 1) ++
        (Propagation.spread annotated c ("copy propagated: " ++ code[i].text)
          (code.drop (i + 1))).code)) := same.setCode there (by
      rw [List.length_append, rereads.length_eq, ← List.length_append, List.take_append_drop])
    have edges : ∀ next ∈ b.succ, next < g.size := fun next edge => by
      obtain ⟨after, isAfter, -⟩ := regular.succ_pred here edge
      exact Graph.lt_size_of_block? isAfter
    simp only [spreads, pure_bind, reaches_eq (b := { b with code }) known]
    split
    · constructor
      · exact foldlM_eq (fun s => g.SamePlaces s.graph)
          (fun s same next edge => enter_eq regular spans same (edges next edge)) spreadSame
      · exact List.foldlRecOn (motive := fun s : State => g.SamePlaces s.graph) b.succ _ spreadSame
          fun s same next edge => (enter_eq regular spans same (edges next edge)).2
    · exact ⟨rfl, spreadSame⟩

/-- Propagates every copy of a block, in order. -/
def propagation (annotated : Bool) (f : Facts) (g : Graph) (id : Nat) : Attempt State := do
  let b ← index g.blocks id
  (List.range b.code.length).foldlM (propagate annotated f id) { graph := g }

/-- Nothing goes wrong when copies are propagated, and every block keeps its places. -/
theorem propagation_eq {id : Nat} (regular : g.Regular) (spans : f.Spans g) (inside : id < g.size)
    (annotated : Bool) : propagation annotated f g id = pure (Propagation.run annotated f g id) ∧
      g.SamePlaces (Propagation.run annotated f g id).graph := by
  obtain ⟨b, here⟩ := Graph.block?_of_lt_size inside
  have turn (s : State) (same : g.SamePlaces s.graph) (i : Nat)
      (member : i ∈ List.range b.code.length) :=
    propagate_eq annotated regular spans same here (List.mem_range.1 member)
  unfold propagation Propagation.run
  rw [index_eq here, pure_bind, here]
  constructor
  · exact foldlM_eq (fun s => g.SamePlaces s.graph) turn (Graph.SamePlaces.refl g)
  · exact List.foldlRecOn (motive := fun s : State => g.SamePlaces s.graph) _ _
      (Graph.SamePlaces.refl g) fun s same i member => (turn s same i member).2

end Attempt

end MipsFlow
