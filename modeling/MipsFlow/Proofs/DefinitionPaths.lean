import Mathlib.Data.List.Nodup
import MipsFlow.Proofs.FactPaths

/-!
# Reaching definitions and paths

A definition is known by its instruction alone, and an instruction may write several registers. It
leaves its block if one of these is not written again behind it, but a block that writes any of them
stops it, whether or not another one still holds what the instruction has put there. So it reaches
those blocks to which a path leads along which none of its registers is written: `reaches_iff_path`.
Of instructions that write one register this is all that can be asked. Of those that write two it is
not: a product is lost where only one half of it is written (`reaches_lost`).
-/

namespace MipsFlow

namespace Instr

/-- The code leaves one of the registers that the instruction writes alone. -/
def PartSpared (d : Instr) (code : List Instr) : Prop := ∃ r ∈ d.defs, ∀ p ∈ code, r ∉ p.defs

/-- The code leaves all registers that the instruction writes alone. -/
def AllSpared (d : Instr) (code : List Instr) : Prop := ∀ p ∈ code, ∀ r ∈ d.defs, r ∉ p.defs

end Instr

/-! ## Summaries of blocks -/

namespace Reaching

variable {ds : List (Reg × Nat)} {code : List Instr} {b : Block} {r : Reg} {i : Nat}

/-- A definition is the last one of its register if none of that register is behind it. -/
theorem mem_lastOfEach : (r, i) ∈ lastOfEach ds ↔ Lasts (· = (r, i)) (·.1 = r) ds := by
  induction ds with
  | nil => simp [lastOfEach]
  | cons d rest ih =>
    rw [lastOfEach, Lasts.cons_iff, ← ih]
    split
    · next again =>
      obtain ⟨e, behind, same⟩ := List.any_eq_true.1 again
      refine (or_iff_left ?_).symm
      rintro ⟨none, rfl⟩
      exact none e behind (by simpa using same)
    · next last =>
      rw [List.mem_cons, or_comm]
      refine or_congr_right ⟨?_, fun isFirst => isFirst.2.symm⟩
      rintro rfl
      exact ⟨fun e behind same => last (List.any_eq_true.2 ⟨e, behind, by simpa using same⟩), rfl⟩

theorem mem_definitions : (r, i) ∈ definitions code ↔ ∃ p ∈ code, p.id = i ∧ r ∈ p.defs := by
  simp [definitions]
  grind

/-- A block lets a definition out if one of its registers is not defined again in the block. -/
theorem mem_gen : i ∈ gen b ↔
    ∃ r, Lasts (fun p => p.id = i ∧ r ∈ p.defs) (fun p => r ∈ p.defs) b.code := by
  have pieces (r : Reg) (p : Instr) :
      (Lasts (· = (r, i)) (·.1 = r) (p.defs.map (·, p.id)) ↔ p.id = i ∧ r ∈ p.defs) ∧
        ((∃ e ∈ p.defs.map (·, p.id), e.1 = r) ↔ r ∈ p.defs) := by
    refine ⟨⟨?_, ?_⟩, by simp⟩
    · rintro ⟨before, e, after, split, rfl, -⟩
      have member : (r, i) ∈ p.defs.map (·, p.id) := by simp [split]
      obtain ⟨_, inside, same⟩ := List.mem_map.1 member
      cases same
      exact ⟨rfl, inside⟩
    · rintro ⟨rfl, inside⟩
      refine Lasts.of_mem (x := (r, p.id)) ?_ (List.mem_map.2 ⟨r, inside, rfl⟩) rfl
      intro e member same
      obtain ⟨_, -, rfl⟩ := List.mem_map.1 member
      exact congrArg (·, p.id) same
  have byRegister (r : Reg) : (r, i) ∈ lastOfEach (definitions b.code) ↔
      Lasts (fun p => p.id = i ∧ r ∈ p.defs) (fun p => r ∈ p.defs) b.code := by
    rw [mem_lastOfEach, definitions, Lasts.flatMap_iff]
    exact Lasts.congr (fun p _ => (pieces r p).1) fun p _ => (pieces r p).2
  simp only [gen, FactSet.mem_ofList, List.mem_map, Prod.exists, exists_eq_right, byRegister]

/-- The rivals of a block are the definitions of registers that it defines. -/
theorem mem_rivals : i ∈ rivals (definitions code) b ↔
    ∃ p ∈ code, p.id = i ∧ ∃ q ∈ b.code, ∃ r ∈ p.defs, r ∈ q.defs := by
  simp only [rivals, FactSet.mem_ofList, List.mem_map, List.mem_filter, Prod.exists,
    exists_eq_right, mem_definitions, List.contains_iff_mem]
  grind

end Reaching

section Analysis

variable {g : Graph} {id place : Nat} {b home : Block} {d : Instr} {before after : List Instr}
variable {route : List Nat}

/-- If instructions have different identities, an identity belongs to one instruction of one block.
-/
theorem Graph.eq_of_same_id (distinct : (g.flatten.map Instr.id).Nodup) {p : Instr}
    (here : g.block? id = some b) (isHome : g.block? place = some home) (inside : p ∈ b.code)
    (member : d ∈ home.code) (same : p.id = d.id) : p = d ∧ id = place := by
  have isSame : p = d :=
    List.inj_on_of_nodup_map distinct (mem_flatten here inside) (mem_flatten isHome member) same
  refine ⟨isSame, ?_⟩
  rw [Graph.flatten, List.map_flatMap, List.nodup_flatMap] at distinct
  have apart {m n : Nat} {c c' : Block} {q q' : Instr} (isBlock : g.block? m = some c)
      (isBlock' : g.block? n = some c') (inside : q ∈ c.code) (inside' : q' ∈ c'.code)
      (first : m < n) : q.id ≠ q'.id := by
    obtain ⟨below, rfl⟩ := List.getElem?_eq_some_iff.1 isBlock
    obtain ⟨below', rfl⟩ := List.getElem?_eq_some_iff.1 isBlock'
    intro same
    exact List.disjoint_left.1 (List.pairwise_iff_getElem.1 distinct.2 m n below below' first)
      (List.mem_map_of_mem inside) (same ▸ List.mem_map_of_mem inside')
  rcases Nat.lt_trichotomy id place with first | same | first
  · exact absurd same (apart here isHome inside member first)
  · exact same
  · exact absurd same.symm (apart isHome here member inside first)

/-- The definition leaves a block if it is made there and part of it is spared behind it. -/
theorem mem_gen_reaching (distinct : (g.flatten.map Instr.id).Nodup)
    (isHome : g.block? place = some home) (split : home.code = before ++ d :: after)
    (here : g.block? id = some b) :
    d.id ∈ Problem.factsAt (Reaching.problem g).gen id ↔ id = place ∧ d.PartSpared after := by
  have isInside : d ∈ home.code := by simp [split]
  simp only [Reaching.problem, factsAt_map_blocks here, Reaching.mem_gen]
  constructor
  · rintro ⟨r, front, p, back, split', ⟨same, writes⟩, kept⟩
    obtain ⟨rfl, rfl⟩ :=
      Graph.eq_of_same_id distinct here isHome (by simp [split'] : p ∈ b.code) isInside same
    cases here.symm.trans isHome
    -- the instruction stands once in its block
    have once : p ∉ before ++ after := by
      have nodup := (List.nodup_flatMap.1 distinct.of_map).1 b (List.mem_of_getElem? isHome)
      rw [split, List.nodup_middle] at nodup
      exact (List.nodup_cons.1 nodup).1
    obtain ⟨-, -, rfl⟩ := (List.append_cons_inj_of_notMem (fun first => once (by simp [first]))
      fun last => once (by simp [last])).1 (split.symm.trans split')
    exact ⟨rfl, r, writes, kept⟩
  · rintro ⟨rfl, r, writes, kept⟩
    cases here.symm.trans isHome
    exact ⟨r, before, d, after, split, ⟨rfl, writes⟩, kept⟩

/-- A block lets a definition out, or stops it, if it writes one of its registers. -/
theorem mem_kill_or_gen_reaching (distinct : (g.flatten.map Instr.id).Nodup)
    (isHome : g.block? place = some home) (isInside : d ∈ home.code) (here : g.block? id = some b) :
    d.id ∈ Problem.factsAt (Reaching.problem g).kill id ∨
      d.id ∈ Problem.factsAt (Reaching.problem g).gen id ↔ ¬ d.AllSpared b.code := by
  have inFlat : d ∈ g.flatten := Graph.mem_flatten isHome isInside
  have rivals :
      d.id ∈ Reaching.rivals (Reaching.definitions g.flatten) b ↔ ¬ d.AllSpared b.code := by
    rw [Reaching.mem_rivals]
    unfold Instr.AllSpared
    push Not
    constructor
    · rintro ⟨p, inside, same, writes⟩
      obtain rfl := List.inj_on_of_nodup_map distinct inside inFlat same
      exact writes
    · exact fun writes => ⟨d, inFlat, rfl, writes⟩
  have own : d.id ∈ Reaching.gen b → d.id ∈ Reaching.rivals (Reaching.definitions g.flatten) b := by
    intro made
    obtain ⟨r, front, p, back, split, ⟨same, writes⟩, -⟩ := Reaching.mem_gen.1 made
    have inside : p ∈ b.code := by simp [split]
    exact Reaching.mem_rivals.2
      ⟨p, Graph.mem_flatten here inside, same, p, inside, r, writes, writes⟩
  simp only [Reaching.problem, factsAt_map_blocks here, FactSet.mem_diff, ← rivals]
  tauto

theorem reaching_forward (g : Graph) : (Reaching.problem g).Forward where
  direction := rfl
  boundary _ := FactSet.not_mem_empty

/-- A path carries a definition if it goes through its block, where part of it is spared, and if all
of it is spared from there on. -/
theorem carries_reaching_iff (distinct : (g.flatten.map Instr.id).Nodup)
    (isHome : g.block? place = some home) (split : home.code = before ++ d :: after)
    (isPath : g.IsPath (route ++ [id])) : (Reaching.problem g).Carries d.id route ↔
      d.PartSpared after ∧
        ∃ front between, route = front ++ place :: between ∧ d.AllSpared (g.codeAlong between) := by
  have isInside : d ∈ home.code := by simp [split]
  have carries : (Reaching.problem g).Carries d.id route ↔
      Lasts (fun id => id = place ∧ d.PartSpared after)
        (fun id => ¬ d.AllSpared ((g.block? id).elim [] Block.code)) route := by
    refine Lasts.iff_made_last.trans (Lasts.congr (fun id member => ?_) fun id member => ?_) <;>
      obtain ⟨b, here⟩ := Graph.block?_of_mem_path isPath member
    · exact mem_gen_reaching distinct isHome split here
    · simpa [here] using mem_kill_or_gen_reaching distinct isHome isInside here
  rw [carries]
  constructor
  · rintro ⟨front, _, between, rfl, ⟨rfl, part⟩, spared⟩
    refine ⟨part, front, between, rfl, List.forall_mem_flatMap.2 fun id member => ?_⟩
    exact not_not.1 (spared id member)
  · rintro ⟨part, front, between, rfl, spared⟩
    refine ⟨front, place, between, rfl, ⟨rfl, part⟩, fun id member => not_not.2 ?_⟩
    exact List.forall_mem_flatMap.1 spared id member

end Analysis

/-- If instructions have different identities, a definition reaches the entry of a block exactly if
one of its registers is not written again in its own block, and a path leads from there to the block
along which none of its registers is written. It reaches the exit of the block if it leaves it in
this way as its own block, or if it has reached its entry and none of its registers is written
there. -/
theorem reaches_iff_path (code : List Instr) (reserved : List Reg)
    (distinct : (code.map Instr.id).Nodup) {place id : Nat} {home b : Block}
    (isHome : (Graph.build code).block? place = some home)
    (here : (Graph.build code).block? id = some b) {before after : List Instr} {d : Instr}
    (split : home.code = before ++ d :: after) :
    let g := Graph.build code
    let reach := (Facts.analyze g reserved).reach
    (d.id ∈ reach.entryOf id ↔ d.PartSpared after ∧
      ∃ between, g.IsPath (place :: (between ++ [id])) ∧ d.AllSpared (g.codeAlong between)) ∧
    (d.id ∈ reach.exitOf id ↔
      (id = place ∧ d.PartSpared after) ∨ (d.id ∈ reach.entryOf id ∧ d.AllSpared b.code)) := by
  intro g reach
  have regular : g.Regular := Graph.build_regular code
  have forward := reaching_forward g
  have distinct' : (g.flatten.map Instr.id).Nodup := by rwa [Graph.flatten_build]
  constructor
  · refine (forward.mem_entryOf_iff_some rfl regular here).trans ⟨?_, ?_⟩
    · rintro ⟨route, isPath, carries⟩
      obtain ⟨part, front, between, rfl, spared⟩ :=
        (carries_reaching_iff distinct' isHome split isPath).1 carries
      rw [List.append_assoc] at isPath
      exact ⟨part, between, isPath.right_of_append, spared⟩
    · rintro ⟨part, between, isPath, spared⟩
      refine ⟨place :: between, isPath, ?_⟩
      exact (carries_reaching_iff distinct' isHome split isPath).2 ⟨part, [], between, rfl, spared⟩
  · have made := mem_gen_reaching distinct' isHome split here
    have stopped := mem_kill_or_gen_reaching distinct' isHome (d := d) (by simp [split]) here
    have flows : d.id ∈ reach.exitOf id ↔ d.id ∈ Problem.factsAt (Reaching.problem g).gen id ∨
        d.id ∉ Problem.factsAt (Reaching.problem g).kill id ∧ d.id ∈ reach.entryOf id :=
      forward.mem_exitOf regular here
    rw [flows, ← made]
    refine or_congr_right' fun unmade => ?_
    rw [or_iff_left unmade] at stopped
    rw [not_iff_comm.1 stopped.symm, and_comm]

/-- A product reaches the last block although one half of it is written behind it at once: what the
other half holds is spared by its own block and by the one on the way. -/
theorem reaches_iff_path_product :
    let product := Instr.ofCommand 1 (.ofOpcode .mult [.reg (.general 8), .reg (.general 9)])
    let code := [product, .ofCommand 2 (.ofOpcode .mtlo [.reg (.general 10)]),
      .ofCommand 3 (.ofOpcode .j [.sym "L"]), ⟨4, .label "L", "", []⟩,
      .ofCommand 5 (.ofOpcode .bne [.reg (.general 8), .reg Reg.zero, .sym "M"]),
      ⟨6, .label "M", "", []⟩, .ofCommand 7 (.ofOpcode .mfhi [.reg (.general 2)]),
      .ofCommand 8 (.ofOpcode .jr [.reg Reg.link])]
    let g := Graph.build code
    (code.map Instr.id).Nodup ∧ g.IsPath [0, 1, 2] ∧
      product.id ∈ (Facts.analyze g []).reach.entryOf 2 := by
  intro product code g
  have distinct : (code.map Instr.id).Nodup := by decide
  have first : g.block? 0 = some { id := 0, code := code.take 3, succ := [1] } := by
    decide +kernel
  have second : g.block? 1 = some
      { id := 1, code := (code.drop 3).take 2, succ := [2], pred := [0] } := by decide +kernel
  have third : g.block? 2 = some { id := 2, code := code.drop 5, pred := [1] } := by
    decide +kernel
  have isPath : g.IsPath [0, 1, 2] := by simp [Graph.IsPath, Graph.succ, first, second]
  have part : product.PartSpared ((code.take 3).drop 1) := ⟨.hi, by decide, by decide⟩
  have spared : product.AllSpared (g.codeAlong [1]) := by
    simp [Graph.codeAlong, second, Instr.AllSpared]
    decide
  have split : code.take 3 = [] ++ product :: (code.take 3).drop 1 := rfl
  exact ⟨distinct, isPath, (reaches_iff_path code [] distinct first third split).1.2
    ⟨part, [1], isPath, spared⟩⟩

/-- It is not true that a definition reaches a block if a path leads there along which one of its
registers is spared: a product is lost on the way to what reads its upper half where the lower half
is written in a block between. -/
theorem reaches_lost :
    let product := Instr.ofCommand 1 (.ofOpcode .mult [.reg (.general 8), .reg (.general 9)])
    let jump := Instr.ofCommand 2 (.ofOpcode .j [.sym "L"])
    let code := [product, jump, ⟨3, .label "L", "", []⟩,
      .ofCommand 4 (.ofOpcode .mtlo [.reg (.general 10)]), .ofCommand 5 (.ofOpcode .j [.sym "M"]),
      ⟨6, .label "M", "", []⟩, .ofCommand 7 (.ofOpcode .mfhi [.reg (.general 2)]),
      .ofCommand 8 (.ofOpcode .jr [.reg Reg.link])]
    let g := Graph.build code
    ((code.map Instr.id).Nodup ∧ (g.block? 0).map Block.code = some [product, jump] ∧
      Reg.hi ∈ product.defs ∧ Reg.hi ∉ jump.defs ∧ g.IsPath [0, 1, 2] ∧
      ∀ p ∈ g.codeAlong [1], Reg.hi ∉ p.defs) ∧
    product.id ∉ (Facts.analyze g []).reach.entryOf 2 := by
  intro product jump code g
  refine ⟨⟨by decide, by decide +kernel, by decide, by decide, ?_, ?_⟩, ?_⟩
  · decide +kernel
  · decide +kernel
  · decide +kernel

end MipsFlow
