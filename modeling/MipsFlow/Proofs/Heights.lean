import Mathlib.Data.List.DropRight
import MipsFlow.Proofs.Pushes
import MipsFlow.Proofs.Recasting
import MipsFlow.Proofs.Weights

/-!
# Copy propagation comes down

Copy propagation exchanges registers for registers, also along the edges of loops, and a program
becomes neither shorter nor lighter. But it moves what is read back in time. A copy marks its
destination, and the rank of a register tells where it was last marked; where a copy holds, its
source ranks below its destination. So the *height* of a graph, the ranks of all registers where
they are read, comes down with every operand that reads through a copy
(`Propagation.heights_spread`).

What comes before a block may be any of its predecessors, so a block is measured behind each of
them. Where a copy is carried into a block, it ranks right behind all predecessors: behind those
that make it, and also behind those that pass it on, as they mark neither register. Marks do not
change when registers are exchanged, and that is why one measure fits all copies.
-/

namespace MipsFlow

/-! ## Ranks -/

/-- The register that the instruction copies another one to. -/
def Instr.mark (p : Instr) : Option Reg := p.copy?.map Prod.fst

/-- The registers that code copies to, instruction by instruction. -/
def marks (code : List Instr) : List (Option Reg) := code.map Instr.mark

/-- Where the register was last marked, counted from one, or zero if it was not. -/
def rank (ms : List (Option Reg)) (r : Reg) : Nat := (ms.rdropWhile (· ≠ some r)).length

section Ranks

variable {ms rest : List (Option Reg)} {r a b : Reg}

@[simp] theorem marks_append (code code' : List Instr) :
    marks (code ++ code') = marks code ++ marks code' := List.map_append

theorem rank_concat (ms : List (Option Reg)) (m : Option Reg) (r : Reg) :
    rank (ms ++ [m]) r = if m = some r then ms.length + 1 else rank ms r := by
  unfold rank
  rw [List.rdropWhile_concat]
  by_cases marked : m = some r <;> simp [marked]

theorem rank_le_length (ms : List (Option Reg)) (r : Reg) : rank ms r ≤ ms.length :=
  (List.rdropWhile_prefix _ _).length_le

/-- A register keeps its rank as long as it is not marked again. -/
theorem rank_append (unmarked : some r ∉ rest) : rank (ms ++ rest) r = rank ms r := by
  induction rest using List.reverseRecOn with
  | nil => rw [List.append_nil]
  | append_singleton rest m ih =>
    simp only [List.mem_append, List.mem_singleton, not_or] at unmarked
    rw [← List.append_assoc, rank_concat, if_neg (Ne.symm unmarked.2), ih unmarked.1]

theorem rank_eq_zero (unmarked : some r ∉ ms) : rank ms r = 0 :=
  show rank ([] ++ ms) r = rank [] r from rank_append unmarked

/-- Behind a copy the destination ranks above every other register, until one of them is marked
again. -/
theorem rank_lt (differ : a ≠ b) (unmarked : some a ∉ rest) (unmarked' : some b ∉ rest) :
    rank (ms ++ some a :: rest) b < rank (ms ++ some a :: rest) a := by
  have other : some a ≠ some b := fun same => differ (Option.some.inj same)
  rw [List.append_cons, rank_append unmarked, rank_append unmarked', rank_concat, rank_concat,
    if_pos rfl, if_neg other]
  exact Nat.lt_succ_of_le (rank_le_length ms b)

end Ranks

/-! ## Heights -/

/-- The ranks of the registers that an instruction reads. -/
def Instr.height (ms : List (Option Reg)) (p : Instr) : Nat :=
  (p.readSites.map fun site => rank ms site.reg).sum

/-- The ranks of the registers that code reads, behind the given marks. -/
def heights : List (Option Reg) → List Instr → Nat
  | _, [] => 0
  | ms, p :: rest => p.height ms + heights (ms ++ [p.mark]) rest

theorem heights_append (ms : List (Option Reg)) (code code' : List Instr) :
    heights ms (code ++ code') = heights ms code + heights (ms ++ marks code) code' := by
  induction code generalizing ms with
  | nil => simp [heights, marks]
  | cons p rest ih =>
    have behind : ms ++ [p.mark] ++ marks rest = ms ++ marks (p :: rest) :=
      (List.append_cons ms p.mark (marks rest)).symm
    rw [List.cons_append, heights, heights, ih, Nat.add_assoc, behind]

namespace Command

variable {c : Command} {a b : Reg}

/-- Renaming what a command reads leaves the register that it copies to. -/
theorem fst_copy?_renameReads :
    (c.renameReads a b).copy?.map Prod.fst = c.copy?.map Prod.fst := by
  cases copies : c.copy? with
  | none =>
    have none : (c.renameReads a b).copy?.isSome = c.copy?.isSome := by
      rw [isSome_copy?, isSome_copy?, kinds_renameReads, op?_renameReads]
    rw [copies, Option.isSome_none, Option.isSome_eq_false_iff, Option.isNone_iff_eq_none] at none
    rw [none]
  | some pair =>
    obtain rfl := copy?_eq_some.1 copies
    have renamed : (copy pair.1 pair.2).renameReads a b =
        copy pair.1 (if pair.2 = a then b else pair.2) := by
      have known : (copy pair.1 pair.2).form? = some .unary := rfl
      unfold renameReads
      rw [known]
      by_cases isSource : pair.2 = a <;>
        simp [copy, ofOpcode, readAt?, Form.unary, isSource, Operand.withBase]
    rw [renamed]
    rfl

end Command

/-- What an instruction copies to, it may write. -/
theorem Instr.mem_clobbers_of_mark {p : Instr} {r : Reg} (marked : p.mark = some r) :
    r ∈ p.clobbers := by
  obtain ⟨pair, copies, rfl⟩ := Option.map_eq_some_iff.1 marked
  obtain ⟨c, command, isCopy⟩ := Option.bind_eq_some_iff.1 copies
  obtain rfl := Command.copy?_eq_some.1 isCopy
  rw [Instr.clobbers, command, Option.elim_some, Command.clobbers_copy]
  exact List.mem_singleton_self _

/-- Code that does not touch a copy does not mark its registers. -/
theorem Copy.unmarked {c : Copy} {code : List Instr}
    (kept : ∀ p ∈ code, c.touches p.clobbers = false) :
    some c.dst ∉ marks code ∧ some c.src ∉ marks code := by
  refine ⟨fun marked => ?_, fun marked => ?_⟩
  all_goals
    obtain ⟨p, member, isMark⟩ := List.mem_map.1 marked
    have written := Instr.mem_clobbers_of_mark isMark
  · exact (Copy.touches_eq_false.1 (kept p member)).1 written
  · exact (Copy.touches_eq_false.1 (kept p member)).2 written

/-! ## Reading through a copy -/

namespace Propagation

variable {annotated : Bool} {c : Copy} {note : String} {p : Instr} {code a b : List Instr}
variable {ms : List (Option Reg)} {n : Nat}

theorem mark_reread (annotated : Bool) (c : Copy) (note : String) (p : Instr) :
    (reread annotated c note p).mark = p.mark := by
  unfold Instr.mark Instr.copy?
  rw [map_command?_reread]
  cases p.command? with
  | none => rfl
  | some d => exact Command.fst_copy?_renameReads

/-- Code that reads through a copy copies to the same registers. -/
theorem Rereads.marks_eq (rereads : Rereads annotated c note a b n) : marks b = marks a := by
  induction rereads with
  | stop => rfl
  | keep _ ih => exact congrArg (List.cons _) ih
  | read _ _ _ ih => exact congrArg₂ List.cons (mark_reread ..) ih

/-- Every operand that reads through the copy comes down by as much as the source ranks below the
destination. -/
theorem height_reread (annotated : Bool) (note : String) (p : Instr)
    (le : rank ms c.src ≤ rank ms c.dst) :
    p.height ms = (reread annotated c note p).height ms +
      p.readSites.countP (·.reg = c.dst) * (rank ms c.dst - rank ms c.src) := by
  have sites : (reread annotated c note p).readSites =
      p.readSites.map fun site => ⟨site.index, if site.reg = c.dst then c.src else site.reg⟩ := by
    unfold Instr.readSites
    rw [map_command?_reread]
    cases p.command? with
    | none => rfl
    | some d => exact Command.readSites_renameReads
  unfold Instr.height
  rw [sites]
  induction p.readSites with
  | nil => simp
  | cons site rest ih =>
    simp only [List.map_cons, List.sum_cons, List.countP_cons, decide_eq_true_eq] at ih ⊢
    by_cases isDst : site.reg = c.dst
    · rw [if_pos isDst, if_pos isDst, isDst, Nat.succ_mul]
      omega
    · rw [if_neg isDst, if_neg isDst, Nat.add_zero]
      omega

/-- Code that a copy is spread over comes down with every operand that reads through it. -/
theorem heights_spread (annotated : Bool) (note : String) (code : List Instr)
    (le : rank ms c.src ≤ rank ms c.dst) :
    heights ms code = heights ms (spread annotated c note code).code +
      (spread annotated c note code).count * (rank ms c.dst - rank ms c.src) := by
  induction code generalizing ms with
  | nil => simp [spread, heights]
  | cons p rest ih =>
    -- behind an instruction that marks neither register, both keep their ranks
    have behind (unmarked : p.mark ≠ some c.dst) (unmarked' : p.mark ≠ some c.src) :
        heights (ms ++ [p.mark]) rest =
          heights (ms ++ [p.mark]) (spread annotated c note rest).code +
            (spread annotated c note rest).count * (rank ms c.dst - rank ms c.src) := by
      have dst : rank (ms ++ [p.mark]) c.dst = rank ms c.dst := by
        rw [rank_concat, if_neg unmarked]
      have src : rank (ms ++ [p.mark]) c.src = rank ms c.src := by
        rw [rank_concat, if_neg unmarked']
      have le' : rank (ms ++ [p.mark]) c.src ≤ rank (ms ++ [p.mark]) c.dst := by rwa [dst, src]
      have later := ih le'
      rwa [dst, src] at later
    cases command : p.command? with
    | none =>
      have unmarked (r : Reg) : p.mark ≠ some r := by simp [Instr.mark, Instr.copy?, command]
      rw [spread_cons_of_none command]
      simp only [Spread.push, heights, Nat.zero_add, behind (unmarked _) (unmarked _)]
      omega
    | some d =>
      have here := height_reread annotated note p le
      rw [spread_cons d command]
      split
      · simp
      · split
        · simp only [heights, mark_reread]
          omega
        · next keeps =>
          have unmarked (r : Reg) (kept : (reread annotated c note p).mayWrite r = false) :
              p.mark ≠ some r := by
            intro marked
            rw [← mark_reread annotated c note] at marked
            simp [Instr.mayWrite, Instr.mem_clobbers_of_mark marked] at kept
          simp only [Bool.or_eq_true, not_or, Bool.not_eq_true] at keeps
          simp only [Spread.push, heights, mark_reread, Nat.add_mul,
            behind (unmarked _ keeps.1) (unmarked _ keeps.2)]
          omega

/-- The marks of code up to a copy. -/
theorem marks_take {i : Nat} (here : code[i]? = some p) (marked : p.mark = some c.dst) :
    marks (code.take (i + 1)) = marks (code.take i) ++ [some c.dst] := by
  have through : code.take (i + 1) = code.take i ++ [p] := by
    rw [List.take_add_one, here]
    rfl
  rw [through, marks_append, ← marked]
  rfl

/-- Code comes down with every operand that reads through a copy that the code makes. -/
theorem heights_spread_behind {i : Nat} (annotated : Bool) (note : String)
    (here : code[i]? = some p) (marked : p.mark = some c.dst) (differ : c.dst ≠ c.src)
    (ms : List (Option Reg)) :
    heights ms (code.take (i + 1) ++ (spread annotated c note (code.drop (i + 1))).code) +
      (spread annotated c note (code.drop (i + 1))).count ≤ heights ms code := by
  have ranks : rank (ms ++ marks (code.take (i + 1))) c.src <
      rank (ms ++ marks (code.take (i + 1))) c.dst := by
    rw [marks_take here marked, ← List.append_assoc]
    exact rank_lt differ List.not_mem_nil List.not_mem_nil
  have split := heights_append ms (code.take (i + 1)) (code.drop (i + 1))
  rw [List.take_append_drop, heights_spread annotated note _ ranks.le] at split
  have down := Nat.le_mul_of_pos_right (spread annotated c note (code.drop (i + 1))).count
    (Nat.sub_pos_of_lt ranks)
  rw [heights_append, split]
  omega

/-- Behind code that a copy is spread over to the end, its registers are not marked. -/
theorem unmarked_of_holds (differ : c.dst ≠ c.src)
    (holds : (spread annotated c note code).holds = true) :
    some c.dst ∉ marks (spread annotated c note code).code ∧
      some c.src ∉ marks (spread annotated c note code).code :=
  Copy.unmarked fun q member => (spread_holds .empty differ holds q member).1

end Propagation

/-! ## Outlines -/

/-- The operand with its register out of focus. The link register stays, as it tells returns from
other jumps. -/
def Operand.blur : Operand → Operand
  | .reg r => .reg (if r = Reg.link then r else Reg.zero)
  | .mem offset _ => .mem offset Reg.zero
  | .imm n => .imm n
  | .sym text => .sym text

namespace Command

variable {c : Command} {a b : Reg}

/-- The command with its registers out of focus. -/
def blur (c : Command) : Command := { c with args := c.args.map Operand.blur }

theorem blur_renameReads (aside : a ≠ Reg.link) (aside' : b ≠ Reg.link) :
    (c.renameReads a b).blur = c.blur := by
  refine congrArg (Command.mk c.mnemonic) (List.ext_getElem? fun i => ?_)
  rw [List.getElem?_map, List.getElem?_map, getElem?_renameReads, Option.map_map]
  congr 1
  funext o
  simp only [Function.comp_apply]
  split
  · next read =>
    cases o with
    | reg r =>
      simp only [readAt?] at read
      split at read
      · obtain rfl := Option.some.inj read
        simp [Operand.withBase, Operand.blur, aside, aside']
      · contradiction
    | mem offset base => rfl
    | imm _ | sym _ => rfl
  · rfl

theorem target?_blur : c.blur.target? = c.target? := by
  have jumps : c.blur.isJump = c.isJump := rfl
  unfold target?
  rw [jumps, blur, List.getLast?_map]
  cases c.args.getLast? with
  | none => rfl
  | some o => cases o <;> rfl

theorem route_blur : c.blur.route = c.route := by
  have returns : c.blur.args = [.reg Reg.link] ↔ c.args = [.reg Reg.link] := by
    rw [blur, List.map_eq_singleton_iff]
    constructor
    · rintro ⟨o, args, isLink⟩
      rw [args]
      cases o with
      | reg r =>
        by_cases same : r = Reg.link
        · rw [same]
        · rw [Operand.blur, if_neg same] at isLink
          exact absurd (Operand.reg.inj isLink) (by decide)
      | _ => cases isLink
    · exact fun args => ⟨_, args, rfl⟩
  have isReturn : c.blur.isReturn = c.isReturn := by
    unfold isReturn
    rw [show c.blur.op? = c.op? from rfl]
    simp only [returns]
  have isIndirect : c.blur.isIndirect = c.isIndirect := by
    have jumps : c.blur.isJump = c.isJump := rfl
    have branches : c.blur.isBranch = c.isBranch := rfl
    unfold isIndirect
    rw [jumps, branches, isReturn, blur, List.getLast?_map]
    congr 1
    cases c.args.getLast? with
    | none => rfl
    | some o => cases o <;> rfl
  unfold route exit
  rw [target?_blur, isReturn, isIndirect]
  rfl

end Command

/-- The instruction with its registers out of focus, and without its notes. -/
def Instr.blur (p : Instr) : Instr :=
  { p with
    content := match p.content with
      | .command c => .command c.blur
      | content => content
    notes := [] }

/-- The builder of graphs does not look at registers and notes. -/
def Recast.blur : Recast where
  instr := Instr.blur
  command := Command.blur
  command? p := by
    unfold Instr.command? Instr.blur
    cases p.content <;> rfl
  label? p := by
    unfold Instr.label? Instr.blur
    cases p.content <;> rfl
  addressTaken labels p := by
    unfold Graph.addressTaken Instr.blur
    cases p.content with
    | command c =>
      have symbols : c.blur.args.filterMap Graph.symbolOf? = c.args.filterMap Graph.symbolOf? := by
        rw [Command.blur, List.filterMap_map]
        refine List.filterMap_congr fun o _ => ?_
        cases o <;> rfl
      simp only [Command.target?_blur, symbols]
    | _ => rfl
  route _ := Command.route_blur

namespace Propagation

variable {annotated : Bool} {c : Copy} {note : String} {a b : List Instr} {n : Nat}

theorem blur_reread (annotated : Bool) (note : String) (p : Instr) (aside : c.dst ≠ Reg.link)
    (aside' : c.src ≠ Reg.link) : (reread annotated c note p).blur = p.blur := by
  have renamed : (p.renameReads c.dst c.src).blur = p.blur := by
    unfold Instr.renameReads
    cases command : p.command? with
    | none => rfl
    | some d =>
      simp only [Instr.blur, Instr.withCommand, Command.blur_renameReads aside aside',
        Instr.content_of_command command]
  unfold reread
  split
  · refine Eq.trans ?_ renamed
    unfold Instr.note
    split <;> rfl
  · exact renamed

theorem Rereads.blur_eq (rereads : Rereads annotated c note a b n) (aside : c.dst ≠ Reg.link)
    (aside' : c.src ≠ Reg.link) : b.map Instr.blur = a.map Instr.blur := by
  induction rereads with
  | stop => rfl
  | keep _ ih => exact congrArg (List.cons _) ih
  | read _ _ _ ih => exact congrArg₂ List.cons (blur_reread _ _ _ aside aside') ih

end Propagation

/-- What becomes of a block when its registers get out of focus, and the registers that it copies
to. -/
def Block.outline (b : Block) : Block × List (Option Reg) := (b.recast .blur, marks b.code)

namespace Graph

variable {g g' : Graph} {id : Nat} {b b' : Block} {code : List Instr}

/-- The outlines of the blocks. -/
def outline (g : Graph) : List (Block × List (Option Reg)) := g.blocks.map Block.outline

theorem outline_setCode (here : g.block? id = some b)
    (blurred : code.map Instr.blur = b.code.map Instr.blur) (marked : marks code = marks b.code) :
    (g.setCode id code).outline = g.outline := by
  obtain ⟨inside, rfl⟩ := List.getElem?_eq_some_iff.1 here
  have same : ({ g.blocks[id] with code } : Block).outline = g.blocks[id].outline :=
    congrArg₂ Prod.mk (congrArg (fun code => { g.blocks[id] with code }) blurred) marked
  unfold outline setCode
  conv_rhs => rw [← List.take_append_drop id g.blocks, List.drop_eq_getElem_cons inside]
  rw [List.modify_eq_take_cons_drop inside, List.map_append, List.map_append, List.map_cons,
    List.map_cons, same]

theorem recast_of_outline (same : g'.outline = g.outline) : g'.recast .blur = g.recast .blur := by
  have blocks := congrArg (List.map Prod.fst) same
  unfold outline at blocks
  rw [List.map_map, List.map_map] at blocks
  exact congrArg Graph.mk blocks

/-- Blocks that correspond have one outline. -/
theorem block?_of_outline (same : g'.outline = g.outline) (here : g.block? id = some b) :
    ∃ b', g'.block? id = some b' ∧ b'.outline = b.outline := by
  have place := congrArg (·[id]?) same
  simp only [outline, List.getElem?_map] at place
  rw [show g.blocks[id]? = some b from here] at place
  exact Option.map_eq_some_iff.1 place

theorem sameShape_of_outline (same : g'.outline = g.outline) : g.SameShape g' := by
  intro id
  have place := congrArg (·[id]?) same
  simp only [outline, List.getElem?_map] at place
  have shape := congrArg (Option.map fun x : Block × List (Option Reg) => { x.1 with code := [] })
    place
  rwa [Option.map_map, Option.map_map] at shape

/-! ## The height of a graph -/

/-- The registers that a block copies to. -/
def marksOf (g : Graph) (id : Nat) : List (Option Reg) :=
  (g.block? id).elim [] fun b => marks b.code

theorem marksOf_of_block? (here : g.block? id = some b) : g.marksOf id = marks b.code := by
  rw [marksOf, here, Option.elim_some]

theorem marksOf_of_outline (same : g'.outline = g.outline) : g'.marksOf = g.marksOf := by
  funext id
  cases here : g.block? id with
  | none =>
    have missing := (sameShape_of_outline same).block?_none here
    rw [marksOf, marksOf, here, missing]
  | some b =>
    obtain ⟨b', there, outline⟩ := block?_of_outline same here
    rw [marksOf_of_block? here, marksOf_of_block? there]
    exact congrArg Prod.snd outline

/-- The marks behind which a block is measured: none, and those of every predecessor. -/
def contexts (g : Graph) (b : Block) : List (List (Option Reg)) := [] :: b.pred.map g.marksOf

/-- The height of a block, behind all its contexts. -/
def heightOf (g : Graph) (b : Block) : Nat :=
  ((g.contexts b).map fun ms => heights ms b.code).sum

/-- The height of all blocks. -/
def height (g : Graph) : Nat := (g.blocks.map g.heightOf).sum

theorem sum_map_add_le {α : Type} {l : List α} {f f' : α → Nat} {n : Nat}
    (le : ∀ x ∈ l, f' x ≤ f x) (lower : ∃ x ∈ l, f' x + n ≤ f x) :
    (l.map f').sum + n ≤ (l.map f).sum := by
  induction l with
  | nil => simp at lower
  | cons x l ih =>
    obtain ⟨here, later⟩ := List.forall_mem_cons.1 le
    rw [List.map_cons, List.map_cons, List.sum_cons, List.sum_cons]
    rcases (List.exists_mem_cons_iff ..).1 lower with first | other
    · have rest : (l.map f').sum ≤ (l.map f).sum := List.sum_le_sum later
      omega
    · have rest := ih later other
      omega

/-- Code that comes down behind every context brings its graph down. -/
theorem height_setCode {n : Nat} (here : g.block? id = some b)
    (outline : (g.setCode id code).outline = g.outline)
    (le : ∀ ms ∈ g.contexts b, heights ms code ≤ heights ms b.code)
    (lower : ∃ ms ∈ g.contexts b, heights ms code + n ≤ heights ms b.code) :
    (g.setCode id code).height + n ≤ g.height := by
  have contexts : (g.setCode id code).contexts = g.contexts := by
    unfold Graph.contexts
    rw [marksOf_of_outline outline]
  have heightOf : (g.setCode id code).heightOf = g.heightOf := by
    unfold Graph.heightOf
    rw [contexts]
  obtain ⟨inside, rfl⟩ := List.getElem?_eq_some_iff.1 here
  have block : g.heightOf { g.blocks[id] with code } + n ≤ g.heightOf g.blocks[id] :=
    sum_map_add_le le lower
  unfold height
  rw [heightOf, setCode]
  conv_rhs => rw [← List.take_append_drop id g.blocks, List.drop_eq_getElem_cons inside]
  simp only [List.modify_eq_take_cons_drop inside, List.map_append, List.map_cons, List.sum_append,
    List.sum_cons]
  dsimp only at block ⊢
  omega

end Graph

/-! ## The pass -/

namespace Propagation

variable {annotated : Bool} {f : Facts} {g : Graph} {source id i : Nat} {st : State} {c : Copy}
variable {p : Instr} {b : Block} {reserved : FactSet Reg}

theorem mark_of_makes (makes : Copy.of? reserved p = some c) : p.mark = some c.dst := by
  rw [Instr.mark, Instr.copy?, (Copy.of?_eq_some makes).1]
  rfl

/-- Code that makes a copy ranks the source below the destination. -/
theorem rank_lt_of_lasts {code : List Instr} (lasts : c.LastsIn reserved code) :
    rank (marks code) c.src < rank (marks code) c.dst := by
  obtain ⟨before, p, after, rfl, makes, kept⟩ := lasts
  obtain ⟨unmarked, unmarked'⟩ := Copy.unmarked fun q member => by simpa using kept q member
  rw [marks_append, show marks (p :: after) = some c.dst :: marks after from
    congrArg (· :: marks after) (mark_of_makes makes)]
  exact rank_lt (Copy.of?_eq_some makes).2.1 unmarked unmarked'

/-- Where a copy is available, its source ranks no higher than its destination, whatever comes
before. -/
theorem rank_le_of_available (regular : g.Regular) (sound : f.CopiesSound g (· = source))
    (leaves : rank (g.marksOf source) c.src < rank (g.marksOf source) c.dst)
    (here : g.block? id = some b) (available : c ∈ f.copies.entryOf id) :
    ∀ ms ∈ g.contexts b, rank ms c.src ≤ rank ms c.dst := by
  refine List.forall_mem_cons.2 ⟨Nat.le_refl _, List.forall_mem_map.2 fun last isLast => ?_⟩
  obtain ⟨before, there, edge⟩ := regular.pred_succ here isLast
  by_cases isSource : last = source
  · exact isSource ▸ leaves.le
  · rw [Graph.marksOf_of_block? there]
    rcases sound.block there isSource (sound.edge there edge available) with ⟨-, kept⟩ | made
    · obtain ⟨unmarked, unmarked'⟩ := Copy.unmarked kept
      rw [rank_eq_zero unmarked, rank_eq_zero unmarked']
    · exact (rank_lt_of_lasts (Copies.mem_madeBy.1 made)).le

/-- The graph has come down if it has changed, and no other block has changed but where the state
says so. -/
structure Sinks (g : Graph) (source : Nat) (st : State) : Prop where
  outline : st.graph.outline = g.outline
  le : st.graph.height ≤ g.height
  lower : st.changed = true → st.graph.height < g.height
  others : st.elsewhere = false → ∀ id, id ≠ source → st.graph.block? id = g.block? id

theorem Sinks.initial : Sinks g source { graph := g } :=
  ⟨rfl, Nat.le_refl _, (fun changed => by cases changed), fun _ _ _ => rfl⟩

/-- Blocks of graphs with one outline are measured behind the same marks. -/
theorem contexts_eq {g' : Graph} {b' : Block} (same : g'.outline = g.outline)
    (outline : b'.outline = b.outline) : g'.contexts b' = g.contexts b := by
  have pred : b'.pred = b.pred := congrArg (fun x : Block × List (Option Reg) => x.1.pred) outline
  rw [Graph.contexts, Graph.contexts, Graph.marksOf_of_outline same, pred]

/-- Carrying a copy into a block changes it only if the copy is available there and is read. -/
theorem enter_changes (annotated : Bool) (f : Facts) (source : Nat) (p : Instr) (c : Copy)
    (s : State) (id : Nat) : enter annotated f source p c s id = s ∨
      ∃ b note, s.graph.block? id = some b ∧ f.available b c = true ∧
        0 < (spread annotated c note b.code).count ∧ enter annotated f source p c s id =
          ⟨s.graph.setCode id (spread annotated c note b.code).code, true, true⟩ := by
  unfold enter
  split
  · exact Or.inl rfl
  · next b here =>
    split
    · next available =>
      dsimp only
      split
      · exact Or.inl rfl
      · next some => exact Or.inr ⟨b, _, here, available, Nat.pos_of_ne_zero some, rfl⟩
    · exact Or.inl rfl

/-- Carrying a copy into a successor. -/
theorem Sinks.enter (sinks : Sinks g source st) (regular : g.Regular)
    (sound : f.CopiesSound g (· = source)) (aside : c.dst ≠ Reg.link) (aside' : c.src ≠ Reg.link)
    (leaves : rank (g.marksOf source) c.src < rank (g.marksOf source) c.dst) {first : Block}
    (isSource : g.block? source = some first) (edge : id ∈ first.succ) :
    Sinks g source (enter annotated f source p c st id) := by
  rcases enter_changes annotated f source p c st id with
    same | ⟨b', note, there, available, some, entered⟩
  · rwa [same]
  obtain ⟨b, here, same⟩ := Graph.block?_of_outline sinks.outline.symm there
  have isPlace : b'.id = id :=
    ((Graph.sameShape_of_outline sinks.outline).regular regular).place there
  have ranks := rank_le_of_available regular sound leaves here
    (by simpa [Facts.available, isPlace] using available)
  rw [contexts_eq sinks.outline.symm same] at ranks
  have isContext : g.marksOf source ∈ st.graph.contexts b' := by
    rw [← contexts_eq sinks.outline.symm same]
    obtain ⟨after, isAfter, back⟩ := regular.succ_pred isSource edge
    cases here.symm.trans isAfter
    exact List.mem_cons_of_mem _ (List.mem_map_of_mem back)
  have rereads := spread_rereads annotated c note b'.code
  have outline := Graph.outline_setCode there (rereads.blur_eq aside aside') rereads.marks_eq
  have lower : (st.graph.setCode id (spread annotated c note b'.code).code).height + 1 ≤
      st.graph.height := by
    refine Graph.height_setCode there outline (fun ms member => ?_) ⟨_, isContext, ?_⟩
    · have down := heights_spread annotated note b'.code (ranks ms member)
      omega
    · have down := heights_spread annotated note b'.code leaves.le
      have by_one := Nat.mul_le_mul (Nat.succ_le_of_lt some) (Nat.sub_pos_of_lt leaves)
      omega
  have further := Nat.lt_of_lt_of_le lower sinks.le
  rw [entered]
  exact ⟨outline.trans sinks.outline, further.le, fun _ => further, fun none => by cases none⟩

/-- Spreading a copy to the end of its block. If it goes on, its source ranks below its destination
at the end. -/
theorem Sinks.depart (sinks : Sinks g source st)
    (reserves : ∀ r ∈ Reg.alwaysReserved, r ∈ f.reserved) {d : Departure}
    (departs : depart? annotated f source st i = some d) :
    Sinks g source d.state ∧ (d.onward = [] ∨
      rank (g.marksOf source) d.copy.src < rank (g.marksOf source) d.copy.dst ∧
        ∃ first, g.block? source = some first ∧ d.onward = first.succ) := by
  obtain ⟨b', there, isHere, makes, isState, onward⟩ := depart?_eq_some departs
  obtain ⟨-, differ, -⟩ := Copy.of?_eq_some makes
  obtain ⟨aside, aside'⟩ := aside_of_makes reserves makes
  obtain ⟨note, isNote⟩ : ∃ note, note = "copy propagated: " ++ d.instr.text := ⟨_, rfl⟩
  rw [← isNote] at isState onward
  have rereads := spread_rereads annotated d.copy note (b'.code.drop (i + 1))
  have outline : d.state.graph.outline = st.graph.outline := by
    rw [isState]
    refine Graph.outline_setCode there ?_ ?_
    · rw [List.map_append, rereads.blur_eq aside aside', ← List.map_append, List.take_append_drop]
    · rw [marks_append, rereads.marks_eq, ← marks_append, List.take_append_drop]
  have down := heights_spread_behind annotated note isHere (mark_of_makes makes) differ
  have lower : d.state.graph.height +
      (spread annotated d.copy note (b'.code.drop (i + 1))).count ≤ st.graph.height := by
    rw [isState] at outline ⊢
    exact Graph.height_setCode there outline
      (fun ms _ => (Nat.le_add_right ..).trans (down ms)) ⟨[], List.mem_cons_self .., down []⟩
  refine ⟨⟨outline.trans sinks.outline, ?_, fun changed => ?_, fun untouched id isOther => ?_⟩, ?_⟩
  · exact ((Nat.le_add_right ..).trans lower).trans sinks.le
  · rw [isState] at changed
    rcases Bool.or_eq_true_iff.1 changed with before | here
    · have := sinks.lower before
      omega
    · have := sinks.le
      have := of_decide_eq_true here
      omega
  · rw [isState] at untouched ⊢
    rw [← sinks.others untouched id isOther]
    exact Graph.block?_setCode_of_ne isOther
  · refine onward.imp_right fun ⟨holds, isOnward⟩ => ?_
    obtain ⟨unmarked, unmarked'⟩ := unmarked_of_holds differ holds
    have isCode : d.state.graph.block? source = some { b' with code := b'.code.take (i + 1) ++
        (spread annotated d.copy note (b'.code.drop (i + 1))).code } := by
      rw [isState]
      exact Graph.block?_setCode_self there
    obtain ⟨first, isFirst, same⟩ := Graph.block?_of_outline sinks.outline.symm there
    refine ⟨?_, first, isFirst, ?_⟩
    · rw [← Graph.marksOf_of_outline (outline.trans sinks.outline), Graph.marksOf_of_block? isCode,
        marks_append, marks_take isHere (mark_of_makes makes), List.append_assoc]
      exact rank_lt differ unmarked unmarked'
    · rw [isOnward]
      exact congrArg (fun x : Block × List (Option Reg) => x.1.succ) same.symm

theorem Sinks.propagate (sinks : Sinks g source st) (regular : g.Regular)
    (sound : f.CopiesSound g (· = source)) (reserves : ∀ r ∈ Reg.alwaysReserved, r ∈ f.reserved)
    (i : Nat) : Sinks g source (propagate annotated f source st i) := by
  rw [propagate_eq]
  cases departs : depart? annotated f source st i with
  | none => exact sinks
  | some d =>
    obtain ⟨-, -, -, makes, -⟩ := depart?_eq_some departs
    obtain ⟨aside, aside'⟩ := aside_of_makes reserves makes
    obtain ⟨departed, none | ⟨leaves, first, isFirst, isOnward⟩⟩ := sinks.depart reserves departs
    · rw [Option.elim_some, none]
      exact departed
    · exact List.foldlRecOn (motive := Sinks g source) d.onward _ departed
        fun _ entered next goes =>
          entered.enter regular sound aside aside' leaves isFirst (isOnward ▸ goes)

/-- If copy propagation changes a graph, the graph comes down. -/
theorem run_sinks (annotated : Bool) (regular : g.Regular) (sound : f.CopiesSound g (· = source))
    (reserves : ∀ r ∈ Reg.alwaysReserved, r ∈ f.reserved) :
    Sinks g source (run annotated f g source) := by
  unfold run
  split
  · exact .initial
  · next b _ =>
    exact List.foldlRecOn (motive := Sinks g source) (List.range b.code.length) _ .initial
      fun _ propagated i _ => propagated.propagate regular sound reserves i

end Propagation

end MipsFlow
