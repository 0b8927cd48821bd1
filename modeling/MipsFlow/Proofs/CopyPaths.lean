import MipsFlow.Proofs.FactPaths
import MipsFlow.Proofs.Words

/-!
# Available copies and paths

A copy is available at the entry of a block only if on every path to it, from where control comes
in, the copy is made and neither of its registers may have been written since. If control can come
to every block, every copy of which that is true is available. A run goes along such a path, so that
an available copy holds whenever a run comes to the block, unless it is one to the zero register and
this is not reserved: `available_iff_paths`. In that case it may not hold: `available_copy_to_zero`.

The blocks of a path carry a copy if it lasts along their instructions (`carries_copies_iff`), and
facts that meet by intersection are those that all paths carry.
-/

namespace MipsFlow

variable {V M : Type}

namespace Copy

variable {reserved : List Reg} {c : Copy} {p : Instr} {code : List Instr}

/-- The instruction copies the source of the copy to its destination. They are different registers,
and neither is reserved. -/
def MadeBy (reserved : List Reg) (c : Copy) (p : Instr) : Prop :=
  p.copy? = some (c.dst, c.src) ∧ c.dst ≠ c.src ∧ c.dst ∉ reserved ∧ c.src ∉ reserved

/-- The instruction may write one of the two registers. -/
def LostBy (c : Copy) (p : Instr) : Prop := c.dst ∈ p.clobbers ∨ c.src ∈ p.clobbers

theorem of?_eq_some_iff : Copy.of? (.ofList reserved) p = some c ↔ c.MadeBy reserved p := by
  obtain ⟨dst, src⟩ := c
  unfold MadeBy Copy.of?
  split
  · next d s copies =>
    simp [copies]
    grind
  · next none => simp [none]

theorem touches_iff : c.touches p.clobbers = true ↔ c.LostBy p := by
  simp [touches, LostBy]

theorem lastsIn_iff :
    c.LastsIn (.ofList reserved) code ↔ Lasts (c.MadeBy reserved) c.LostBy code :=
  Lasts.congr (fun _ _ => of?_eq_some_iff) fun _ _ => touches_iff

/-- What lasts is a copy of another register to one that is not reserved. -/
theorem of_lasts (lasts : Lasts (c.MadeBy reserved) c.LostBy code) :
    c.dst ≠ c.src ∧ c.dst ∉ reserved := by
  obtain ⟨-, p, -, -, ⟨-, differ, free, -⟩, -⟩ := lasts
  exact ⟨differ, free⟩

end Copy

section Analysis

variable {g : Graph} {reserved : List Reg} {c : Copy} {id : Nat} {route : List Nat}

theorem copies_must (g : Graph) (reserved : List Reg) : (Copies.problem g reserved).Must where
  direction := rfl
  boundary _ := FactSet.not_mem_empty
  meet := rfl
  opened := rfl

/-- A block does not destroy the copies whose registers it leaves alone. -/
theorem not_mem_kill_copies {b : Block} (here : g.block? id = some b)
    (kept : ∀ p ∈ b.code, c.touches p.clobbers = false) :
    c ∉ Problem.factsAt (Copies.problem g reserved).kill id := by
  rw [mem_kill_copies here]
  rintro ⟨-, p, inside, touched⟩
  rw [kept p inside] at touched
  contradiction

/-- A path carries a copy of the program if it lasts along the instructions of the path. -/
theorem carries_copies_iff (known : c ∈ Copies.made (.ofList reserved) g.flatten)
    (isPath : g.IsPath (route ++ [id])) : (Copies.problem g reserved).Carries c route ↔
      Lasts (c.MadeBy reserved) c.LostBy (g.codeAlong route) := by
  rw [← Copy.lastsIn_iff, Copy.LastsIn, Graph.codeAlong, Lasts.flatMap_iff]
  refine Lasts.congr (fun place member => ?_) fun place member => ?_ <;>
    obtain ⟨b, here⟩ := Graph.block?_of_mem_path isPath member <;>
    simp only [here, Option.elim_some]
  · exact (mem_gen_copies here).trans Copies.mem_madeBy
  · exact (mem_kill_copies here).trans (and_iff_right known)

/-- Only copies of the program are carried along paths. -/
theorem made_of_carries (isPath : g.IsPath (route ++ [id]))
    (carries : (Copies.problem g reserved).Carries c route) :
    c ∈ Copies.made (.ofList reserved) g.flatten := by
  obtain ⟨before, place, after, rfl, makes, -⟩ := carries
  have onPath : place ∈ before ++ place :: after := by simp
  obtain ⟨b, here⟩ := Graph.block?_of_mem_path isPath onPath
  exact made_subset_flatten here (Copies.mem_made_of_mem_madeBy ((mem_gen_copies here).1 makes))

/-- Only copies of the program last along paths. -/
theorem made_of_lasts (lasts : Lasts (c.MadeBy reserved) c.LostBy (g.codeAlong route)) :
    c ∈ Copies.made (.ofList reserved) g.flatten := by
  obtain ⟨before, p, after, split, makes, -⟩ := lasts
  have inside : p ∈ g.codeAlong route := by simp [split]
  exact FactSet.mem_ofList.2 (List.mem_filterMap.2
    ⟨p, Graph.mem_flatten_of_mem_codeAlong inside, Copy.of?_eq_some_iff.2 makes⟩)

end Analysis

/-! ## Runs -/

/-- A run goes along a path, and its state is what the instructions of the path make of the first
one. -/
theorem Interpretation.visit_route (I : Interpretation V M) {g : Graph} {start n id : Nat}
    {s t : MachineState V M} (visited : I.visit g start s n = some (id, t)) :
    ∃ route, g.IsPath (route ++ [id]) ∧ (route ++ [id]).head? = some start ∧
      t = I.execAll (g.codeAlong route) s := by
  induction n generalizing id t with
  | zero =>
    cases visited
    exact ⟨[], .singleton _, rfl, rfl⟩
  | succ n ih =>
    obtain ⟨last, u, b, before, here, goes, rfl⟩ := I.visit_succ_eq_some visited
    have edge : id ∈ g.succ last := Graph.succ_eq here ▸ I.mem_succ_of_next goes
    obtain ⟨route, isPath, starts, rfl⟩ := ih before
    refine ⟨route ++ [last], Graph.isPath_concat.2 ⟨isPath, edge⟩, ?_, ?_⟩
    · rw [← starts]
      simp [List.head?_append]
    · have behind : g.codeAlong (route ++ [last]) = g.codeAlong route ++ b.code := by
        simp [Graph.codeAlong, here]
      rw [behind, I.execAll_append]

/-- If a copy is available at the entry of a block, it lasts along every path to the block from
where control comes in: some instruction of the path makes it, and none behind that may write either
of its registers. So if it is not a copy to the zero register, or this is reserved, its registers
hold the same value whenever a run that starts where control comes in visits the block, whatever the
other commands compute. If control can come to every block, every copy that lasts along all these
paths is available. -/
theorem available_iff_paths (code : List Instr) (reserved : List Reg) {id : Nat} {b : Block}
    (here : (Graph.build code).block? id = some b) (c : Copy) :
    let g := Graph.build code
    let copies := (Facts.analyze g reserved).copies
    (c ∈ copies.entryOf id →
      (∀ route, g.Enters route id → Lasts (c.MadeBy reserved) c.LostBy (g.codeAlong route)) ∧
      ((c.dst = Reg.zero → Reg.zero ∈ reserved) →
        ∀ {V M : Type} (I : Interpretation V M), I.Copies → ∀ start, g.ComesIn start →
          ∀ (s t : MachineState V M) (n : Nat), I.visit g start s n = some (id, t) →
            c.Holds I t)) ∧
    ((∀ other < g.size, ∃ route, g.Enters route other) →
      (∀ route, g.Enters route id → Lasts (c.MadeBy reserved) c.LostBy (g.codeAlong route)) →
      c ∈ copies.entryOf id) := by
  intro g copies
  have regular := Graph.build_regular code
  have must := copies_must g reserved
  refine ⟨fun available => ?_, fun reached lasts => ?_⟩
  · have everywhere : ∀ route, g.Enters route id →
        Lasts (c.MadeBy reserved) c.LostBy (g.codeAlong route) := by
      intro route enters
      have carries := must.carries_of_mem_entryOf regular here available enters
      exact (carries_copies_iff (made_of_carries enters.1 carries) enters.1).1 carries
    refine ⟨everywhere, fun unlessZero => fun I copying start comesIn s t n visited => ?_⟩
    obtain ⟨route, isPath, starts, rfl⟩ := I.visit_route visited
    have lasts := everywhere route ⟨isPath, start, starts, comesIn⟩
    obtain ⟨differ, free⟩ := Copy.of_lasts lasts
    have nonzero : c.dst.isZero = false := by
      rw [Reg.isZero, decide_eq_false_iff_not]
      exact fun isZero => free (isZero ▸ unlessZero isZero)
    exact (Copy.takes copying differ nonzero).holds_of_lasts (Copy.lastsIn_iff.2 lasts)
  · obtain ⟨route, enters⟩ := reached id (Graph.lt_size_of_block? here)
    have known := made_of_lasts (lasts route enters)
    refine must.mem_entryOf_of_carries regular known reached here fun route enters => ?_
    exact (carries_copies_iff known enters.1).2 (lasts route enters)

/-- A copy that is made before a loop is available in the loop, however often a run goes through it,
and as control can come to all blocks it would be available for its paths alone. -/
theorem available_iff_paths_loop :
    let code := [.ofCommand 1 (.copy (.general 8) (.general 9)), ⟨2, .label "L", "", []⟩,
      .ofCommand 3 (.ofOpcode .addu [.reg (.general 10), .reg (.general 8), .reg (.general 8)]),
      .ofCommand 4 (.ofOpcode .bne [.reg (.general 10), .reg Reg.zero, .sym "L"]),
      .ofCommand 5 (.ofOpcode .jr [.reg Reg.link])]
    let c : Copy := ⟨.general 8, .general 9⟩
    let g := Graph.build code
    let I := Words.meaning fun here i =>
      if i.operands.head? = some (.value 0) then some (here + 1) else some 1
    let s : MachineState Word Memory := ⟨fun _ => 7, fun _ => 0⟩
    (∀ other < g.size, ∃ route, g.Enters route other) ∧
      Lasts (c.MadeBy Reg.alwaysReserved) c.LostBy (g.codeAlong [0, 1, 1]) ∧
      (∃ t, I.visit g 0 s 2 = some (1, t) ∧ c.Holds I t) ∧
      c ∈ (Facts.analyze g Reg.alwaysReserved).copies.entryOf 1 := by
  intro code c g I s
  have first : g.block? 0 = some
      { id := 0, code := [.ofCommand 1 (.copy (.general 8) (.general 9))], succ := [1] } := by
    decide +kernel
  have second : g.block? 1 = some
      { id := 1, code := (code.drop 1).take 3, succ := [1, 2], pred := [0, 1] } := by
    decide +kernel
  have comesIn : g.ComesIn 0 := ⟨_, first, Or.inl rfl⟩
  have enters : g.Enters [] 0 ∧ g.Enters [0] 1 ∧ g.Enters [0, 1] 2 ∧ g.Enters [0, 1, 1] 1 := by
    simp [Graph.Enters, Graph.IsPath, Graph.succ, first, second, comesIn]
  have reached : ∀ other < g.size, ∃ route, g.Enters route other := by
    intro other below
    have size : g.size = 3 := by decide +kernel
    rcases other with _ | _ | _ | other
    · exact ⟨_, enters.1⟩
    · exact ⟨_, enters.2.1⟩
    · exact ⟨_, enters.2.2.1⟩
    · omega
  obtain ⟨onPaths, converse⟩ := available_iff_paths code Reg.alwaysReserved second c
  obtain ⟨lasts, holds⟩ := onPaths (by decide +kernel)
  obtain ⟨⟨id, t⟩, visited, isSecond⟩ := Option.map_eq_some_iff.1
    (show (I.visit g 0 s 2).map Prod.fst = some 1 by decide +kernel)
  cases isSecond
  have copying : I.Copies := fun _ _ => rfl
  exact ⟨reached, lasts _ enters.2.2.2,
    ⟨t, visited, holds (by decide) I copying 0 comesIn s t 2 visited⟩, converse reached lasts⟩

/-- Where the zero register is not reserved, a copy to it is available behind `move $0,$8`, though
the zero register does not take the value. -/
theorem available_copy_to_zero :
    let code := [.ofCommand 1 (.copy Reg.zero (.general 8)), ⟨2, .label "L", "", []⟩,
      .ofCommand 3 (.ofOpcode .addu [.reg (.general 10), .reg (.general 8), .reg (.general 8)]),
      .ofCommand 4 (.ofOpcode .bne [.reg (.general 10), .reg Reg.zero, .sym "L"]),
      .ofCommand 5 (.ofOpcode .jr [.reg Reg.link])]
    let c : Copy := ⟨Reg.zero, .general 8⟩
    let g := Graph.build code
    let I := Words.meaning fun here i =>
      if i.operands.head? = some (.value 0) then some (here + 1) else some 1
    let s : MachineState Word Memory := ⟨fun _ => 7, fun _ => 0⟩
    I.Copies ∧ g.ComesIn 0 ∧ c ∈ (Facts.analyze g []).copies.entryOf 1 ∧
      ∃ t, I.visit g 0 s 1 = some (1, t) ∧ ¬ c.Holds I t := by
  intro code c g I s
  have first : g.block? 0 = some
      { id := 0, code := [.ofCommand 1 (.copy Reg.zero (.general 8))], succ := [1] } := by
    decide +kernel
  have seen : (I.visit g 0 s 1).map (fun at? => (at?.1, I.read at?.2 c.dst, I.read at?.2 c.src)) =
      some (1, 0, 7) := by decide +kernel
  obtain ⟨⟨id, t⟩, visited, values⟩ := Option.map_eq_some_iff.1 seen
  obtain ⟨rfl, dst, src⟩ : id = 1 ∧ I.read t c.dst = 0 ∧ I.read t c.src = 7 := by
    simpa using values
  refine ⟨fun _ _ => rfl, ⟨_, first, Or.inl rfl⟩, by decide +kernel, t, visited, fun holds => ?_⟩
  have same : (0 : Word) = 7 := dst.symm.trans (Eq.trans holds src)
  exact absurd same (by decide)

end MipsFlow
