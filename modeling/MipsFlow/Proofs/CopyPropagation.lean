import MipsFlow.Optimizer.Propagation
import MipsFlow.Proofs.CopyFlow
import MipsFlow.Proofs.Notes
import MipsFlow.Proofs.Renaming
import MipsFlow.Proofs.RunsAlike
import MipsFlow.Proofs.Words

/-!
# Copy propagation preserves every run

Reading the source of a copy for its destination changes nothing while the copy holds
(`spread_alike`). Behind the copy in its own block it holds because it was just made; at the entry
of another block because it is available there (`available_holds`). So every position of the block
that is worked on leaves a graph that follows the original one (`Follows.propagate`), although the
graph changes under the facts: they are only ever asked about the original run.

* `propagation_preserves_runs`: the run of the graph after the pass is the run before it.
-/

namespace MipsFlow

variable {V M : Type}

/-- No operand of the instruction is both read and written. -/
def Instr.isSeparate (p : Instr) : Bool := p.command?.all Command.isSeparate

/-- The instructions are separate in all blocks. -/
def Graph.IsSeparate (g : Graph) : Prop :=
  ∀ {id : Nat} {b : Block}, g.block? id = some b → ∀ p ∈ b.code, p.isSeparate = true

namespace Propagation

variable {I : Interpretation V M} {s : MachineState V M} {c : Copy} {annotated : Bool}
variable {note : String} {p : Instr} {code : List Instr}

/-! ## Reading through a copy -/

/-- The instruction that `spread` puts in place of another one. -/
def reread (annotated : Bool) (c : Copy) (note : String) (p : Instr) : Instr :=
  if (p.readSites.countP (·.reg = c.dst) ≠ 0 && annotated) = true then
    (p.renameReads c.dst c.src).note note
  else p.renameReads c.dst c.src

theorem bare_reread (annotated : Bool) (c : Copy) (note : String) (p : Instr) :
    (reread annotated c note p).bare = (p.renameReads c.dst c.src).bare := by
  unfold reread
  split
  · exact Instr.bare_note ..
  · rfl

theorem command?_reread (annotated : Bool) (c : Copy) (note : String) {d : Command}
    (command : p.command? = some d) :
    (reread annotated c note p).command? = some (d.renameReads c.dst c.src) := by
  rw [Interpretation.command?_congr (Instr.content_of_bare (bare_reread annotated c note p)),
    Instr.renameReads_of_command command]
  rfl

/-- What is no command is passed by. -/
theorem spread_cons_of_none (command : p.command? = none) :
    spread annotated c note (p :: code) = (spread annotated c note code).push p 0 := by
  have isCommand : p.isCommand = false := by simp [Instr.isCommand, command]
  conv => lhs; unfold spread
  rw [isCommand]
  rfl

/-- A foreign command that involves the copy ends the search; other commands are reread. -/
theorem spread_cons (d : Command) (command : p.command? = some d) :
    spread annotated c note (p :: code) =
      if d.isForeign && (p.mayWrite c.dst || p.mayWrite c.src || p.reads c.dst) then
        ⟨p :: code, 0, false⟩
      else if (reread annotated c note p).mayWrite c.dst ||
          (reread annotated c note p).mayWrite c.src then
        ⟨reread annotated c note p :: code, p.readSites.countP (·.reg = c.dst), false⟩
      else
        (spread annotated c note code).push (reread annotated c note p)
          (p.readSites.countP (·.reg = c.dst)) := by
  have isCommand : p.isCommand = true := by simp [Instr.isCommand, command]
  have foreign : p.isCommandWith Command.isForeign = d.isForeign :=
    Instr.isCommandWith_of_command command _
  conv => lhs; unfold spread
  rw [isCommand, foreign]
  rfl

/-- Commands that are reread may write the same, if foreign ones are left alone. -/
theorem clobbers_reread (annotated : Bool) (note : String) {d : Command}
    (separate : p.isSeparate = true) (command : p.command? = some d)
    (aside : d.isForeign = true → c.dst ∉ d.uses) :
    (reread annotated c note p).clobbers = p.clobbers := by
  have isSeparate : d.isSeparate = true := by simpa [Instr.isSeparate, command] using separate
  unfold Instr.clobbers
  rw [command?_reread annotated c note command, command, Option.elim_some, Option.elim_some]
  cases known : d.form? with
  | none =>
    have foreign : d.isForeign = true := by simp [Command.isForeign, known]
    rw [Command.renameReads_of_not_mem_uses (aside foreign)]
  | some form => exact Command.clobbers_renameReads (Command.updates_of_separate isSeparate) known

/-- A foreign command that does not end the search does not read the copy. -/
theorem not_mem_uses_of_aside {d : Command} (command : p.command? = some d)
    (aside : ¬ (d.isForeign && (p.mayWrite c.dst || p.mayWrite c.src || p.reads c.dst)) = true)
    (foreign : d.isForeign = true) : c.dst ∉ d.uses := by
  intro read
  refine aside ?_
  simp [foreign, Instr.reads, Instr.uses, command, read]

/-- Commands that are reread do the same where the copy holds, and may write the same. -/
theorem reread_alike (annotated : Bool) (note : String) {d : Command} (holds : c.Holds I s)
    (separate : p.isSeparate = true)
    (command : p.command? = some d) (aside : d.isForeign = true → c.dst ∉ d.uses) :
    InstrAlike I p (reread annotated c note p) s ∧
      (reread annotated c note p).clobbers = p.clobbers := by
  have renamed := command?_reread annotated c note command
  have isSeparate : d.isSeparate = true := by simpa [Instr.isSeparate, command] using separate
  have jumps : (d.renameReads c.dst c.src).isJump = d.isJump := rfl
  refine ⟨?_, clobbers_reread annotated note separate command aside⟩
  cases known : d.form? with
  | none =>
    have foreign : d.isForeign = true := by simp [Command.isForeign, known]
    rw [Command.renameReads_of_not_mem_uses (aside foreign)] at renamed
    have same : (reread annotated c note p).command? = p.command? := renamed.trans command.symm
    refine ⟨by rw [same], ?_, fun here => ?_⟩
    · unfold Interpretation.execInstr
      rw [same]
    · unfold Interpretation.decideInstr
      rw [same]
  | some form =>
    refine ⟨?_, ?_, fun here => ?_⟩
    · rw [renamed, command, Option.map_some, Option.map_some, I.inputs_renameReads holds]
    · unfold Interpretation.execInstr
      rw [renamed, command, Option.elim_some, Option.elim_some,
        I.exec_renameReads (Command.updates_of_separate isSeparate) known holds]
    · unfold Interpretation.decideInstr
      rw [renamed, command, Option.filter_some, Option.filter_some, jumps]
      split
      · rw [Option.map_some, Option.map_some, I.decide_renameReads here known holds]
      · rfl

/-- Where a copy holds, code that reads its source for its destination runs alike. If the copy is
said to hold behind the code, it does. -/
theorem spread_alike (annotated : Bool) (note : String) (holds : c.Holds I s)
    (separate : ∀ p ∈ code, p.isSeparate = true) :
    RunsAlike I code (spread annotated c note code).code s ∧
      ((spread annotated c note code).holds = true → c.Holds I (I.execAll code s)) := by
  induction code generalizing s with
  | nil => exact ⟨trivial, fun _ => holds⟩
  | cons p rest ih =>
    have separateRest : ∀ q ∈ rest, q.isSeparate = true := fun q member =>
      separate q (List.mem_cons_of_mem _ member)
    cases command : p.command? with
    | none =>
      have kept : c.touches p.clobbers = false := by
        simp [Instr.clobbers, command, Copy.touches]
      obtain ⟨alike, ends⟩ := ih (holds.execInstr (p := p) kept) separateRest
      rw [spread_cons_of_none command]
      exact ⟨⟨.refl p, alike⟩, ends⟩
    | some d =>
      rw [spread_cons d command]
      split
      · exact ⟨.refl, fun impossible => by simp at impossible⟩
      · next aside =>
        obtain ⟨alike, clobbers⟩ := reread_alike annotated note holds
          (separate p (List.mem_cons_self ..)) command (not_mem_uses_of_aside command aside)
        split
        · exact ⟨⟨alike, .refl⟩, fun impossible => by simp at impossible⟩
        · next keeps =>
          have kept : c.touches p.clobbers = false := by
            rw [Copy.touches_eq_false, ← clobbers]
            simpa [Instr.mayWrite] using keeps
          obtain ⟨alikeRest, ends⟩ := ih (holds.execInstr kept) separateRest
          exact ⟨⟨alike, alikeRest⟩, ends⟩

theorem spread_separate (separate : ∀ p ∈ code, p.isSeparate = true) :
    ∀ p ∈ (spread annotated c note code).code, p.isSeparate = true := by
  induction code with
  | nil => exact separate
  | cons p rest ih =>
    have separateRest : ∀ q ∈ rest, q.isSeparate = true := fun q member =>
      separate q (List.mem_cons_of_mem _ member)
    have cons : ∀ {q : Instr} {others : List Instr}, q.isSeparate = true →
        (∀ r ∈ others, r.isSeparate = true) → ∀ r ∈ q :: others, r.isSeparate = true := by
      rintro q others first later r member
      rcases List.mem_cons.1 member with rfl | behind
      · exact first
      · exact later r behind
    cases command : p.command? with
    | none =>
      rw [spread_cons_of_none command]
      exact cons (separate p (List.mem_cons_self ..)) (ih separateRest)
    | some d =>
      have renamed : (reread annotated c note p).isSeparate = true := by
        have before := separate p (List.mem_cons_self ..)
        rw [Instr.isSeparate, command, Option.all_some] at before
        rw [Instr.isSeparate, command?_reread annotated c note command, Option.all_some,
          Command.isSeparate_renameReads, before]
      rw [spread_cons d command]
      split
      · exact separate
      · split
        · exact cons renamed separateRest
        · exact cons renamed (ih separateRest)

/-! ## The graph under work -/

/-- What the propagation of copies from the block `source` rests on, for the runs of `g` from the
block `start`: the facts are right, but for what the source block does. -/
structure Grounds (I : Interpretation V M) (f : Facts) (g : Graph) (source start : Nat) : Prop where
  copies : I.Copies
  reserves : Reg.zero ∈ f.reserved
  regular : g.Regular
  sound : f.CopiesSound g (· = source)
  comesIn : ∃ first, g.block? start = some first ∧ (start = 0 ∨ first.entry = true)

/-- The graph under work follows the original one, and is separate. -/
structure Keeps (I : Interpretation V M) (start : Nat) (s : MachineState V M) (g g' : Graph) :
    Prop where
  follows : Follows I start s g g'
  separate : g'.IsSeparate

variable {f : Facts} {g g' : Graph} {source start : Nat}

theorem Keeps.setCode (keeps : Keeps I start s g g') {id : Nat} {b : Block}
    (here : g'.block? id = some b) (separate : ∀ p ∈ code, p.isSeparate = true)
    (alike : ∀ (n : Nat) (t : MachineState V M), I.visit g start s n = some (id, t) →
      RunsAlike I b.code code t) : Keeps I start s g (g'.setCode id code) := by
  exact ⟨keeps.follows.setCode here alike, Graph.All.setCode keeps.separate here separate⟩

/-- Carrying a copy that holds wherever the source block is left into another block. -/
theorem Keeps.enter (grounds : Grounds I f g source start) {st : State} {id : Nat}
    (keeps : Keeps I start s g st.graph)
    (exits : ∀ (n : Nat) (b : Block) (t : MachineState V M), g.block? source = some b →
      I.visit g start s n = some (source, t) → c.Holds I (I.execAll b.code t)) :
    Keeps I start s g (Propagation.enter annotated f source p c st id).graph := by
  unfold Propagation.enter
  split
  · exact keeps
  · next b here =>
    split
    · next available =>
      simp only
      split
      · exact keeps
      · obtain ⟨first, isFirst, comesIn⟩ := grounds.comesIn
        have place : b.id = id :=
          (keeps.follows.shape.regular grounds.regular).place here
        refine keeps.setCode here (spread_separate (keeps.separate here)) fun n t visited => ?_
        refine (spread_alike _ _ ?_ (keeps.separate here)).1
        refine available_holds grounds.copies grounds.reserves grounds.sound isFirst comesIn ?_
          visited ?_
        · rintro n _ b t rfl there visited
          exact exits n b t there visited
        · simpa [Facts.available, place] using available
    · exact keeps

theorem Keeps.enterAll (grounds : Grounds I f g source start) {ids : List Nat} {st : State}
    (keeps : Keeps I start s g st.graph)
    (exits : ∀ (n : Nat) (b : Block) (t : MachineState V M), g.block? source = some b →
      I.visit g start s n = some (source, t) → c.Holds I (I.execAll b.code t)) :
    Keeps I start s g (ids.foldl (Propagation.enter annotated f source p c) st).graph := by
  induction ids generalizing st with
  | nil => exact keeps
  | cons id ids ih => exact ih (keeps.enter grounds exits)

/-- A block behind its copy at position `i` runs alike when the copy is spread. -/
theorem spread_behind (annotated : Bool) (note : String) (copies : I.Copies)
    {reserved : FactSet Reg} (reserves : Reg.zero ∈ reserved)
    {i : Nat} (here : code[i]? = some p) (makes : Copy.of? reserved p = some c)
    (separate : ∀ p ∈ code, p.isSeparate = true) :
    RunsAlike I code (code.take (i + 1) ++ (spread annotated c note (code.drop (i + 1))).code) s ∧
      ((spread annotated c note (code.drop (i + 1))).holds = true →
        c.Holds I (I.execAll code s)) := by
  have throughCopy : code.take (i + 1) = code.take i ++ [p] := by
    rw [List.take_add_one, here]
    rfl
  have holds : c.Holds I (I.execAll (code.take (i + 1)) s) := by
    rw [throughCopy, I.execAll_append]
    exact (Copy.takes_of_makes copies reserves makes).holds makes
  obtain ⟨alike, ends⟩ := spread_alike annotated note holds
    fun q member => separate q (List.mem_of_mem_drop member)
  have whole : code = code.take (i + 1) ++ code.drop (i + 1) := (List.take_append_drop ..).symm
  constructor
  · conv => arg 2; rw [whole]
    exact RunsAlike.refl.append alike
  · intro isHeld
    rw [whole, I.execAll_append]
    exact ends isHeld

/-- Propagating the copy at one position. -/
theorem Keeps.propagate (grounds : Grounds I f g source start) {st : State} {i : Nat}
    (keeps : Keeps I start s g st.graph) :
    Keeps I start s g (Propagation.propagate annotated f source st i).graph := by
  unfold Propagation.propagate
  split
  · exact keeps
  · next b here =>
    split
    · exact keeps
    · next p isHere =>
      split
      · exact keeps
      · next c makes =>
        have behind := fun t => spread_behind (s := t) annotated ("copy propagated: " ++ p.text)
          grounds.copies grounds.reserves isHere makes
          (keeps.separate here)
        have spreads : Keeps I start s g (st.graph.setCode source (b.code.take (i + 1) ++
            (spread annotated c ("copy propagated: " ++ p.text) (b.code.drop (i + 1))).code)) := by
          refine keeps.setCode here ?_ fun n t _ => (behind t).1
          intro q member
          rcases List.mem_append.1 member with front | back
          · exact keeps.separate here q (List.mem_of_mem_take front)
          · exact spread_separate (fun r present =>
              keeps.separate here r (List.mem_of_mem_drop present)) q back
        simp only
        split
        · next guard =>
          refine Keeps.enterAll grounds spreads fun n original t isOriginal visited => ?_
          rw [← (keeps.follows.alike visited isOriginal here).execAll_eq]
          simp only [Bool.and_eq_true] at guard
          exact (behind t).2 guard.1
        · exact spreads

/-- Propagating every copy of a block. -/
theorem Keeps.run (annotated : Bool) (grounds : Grounds I f g source start)
    (separate : g.IsSeparate) (s : MachineState V M) :
    Keeps I start s g (Propagation.run annotated f g source).graph := by
  have unchanged : Keeps I start s g g := ⟨.refl, separate⟩
  unfold Propagation.run
  split
  · exact unchanged
  · next b _ =>
    have positions : ∀ (is : List Nat) (st : State), Keeps I start s g st.graph →
        Keeps I start s g (is.foldl (Propagation.propagate annotated f source) st).graph := by
      intro is
      induction is with
      | nil => exact fun st keeps => keeps
      | cons i is ih => exact fun st keeps => ih _ (keeps.propagate grounds)
    exact positions _ _ unchanged

/-- Copy propagation preserves behaviour across blocks. On a program in which no operand is both
read and written, with fresh facts, whatever the block: every run from the first block, or from a
block whose address is taken, comes to the same blocks with the same states before and after the
pass. In each of them corresponding instructions read the same inputs, leave the same state, and
take the same decision. -/
theorem propagation_preserves_runs (copies : I.Copies) {code : List Instr} {reserved : List Reg}
    (reserves : Reg.zero ∈ reserved) (separate : ∀ p ∈ code, p.isSeparate = true)
    {start : Nat} {first : Block} (isFirst : (Graph.build code).block? start = some first)
    (comesIn : start = 0 ∨ first.entry = true) (annotated : Bool) (source : Nat)
    (s : MachineState V M) :
    let g := Graph.build code
    let g' := (Propagation.run annotated (Facts.analyze g reserved) g source).graph
    (∀ n, I.visit g' start s n = I.visit g start s n) ∧
      ∀ (n id : Nat) (t : MachineState V M) (b : Block), I.visit g start s n = some (id, t) →
        g.block? id = some b →
        ∃ code', g'.block? id = some { b with code := code' } ∧ RunsAlike I b.code code' t := by
  intro g g'
  have grounds : Grounds I (Facts.analyze g reserved) g source start := by
    refine ⟨copies, ?_, Graph.build_regular code, ?_, first, isFirst, comesIn⟩
    · exact FactSet.mem_ofList.2 reserves
    · exact (analyze_copiesSound (Graph.build_regular code)).mono fun _ none => none.elim
  have isSeparate : g.IsSeparate := fun here p member =>
    separate p (Graph.mem_of_mem_build here member)
  have keeps := Keeps.run annotated grounds isSeparate s
  refine ⟨keeps.follows.visit_eq, ?_⟩
  intro n id t b visited here
  obtain ⟨code', there⟩ := keeps.follows.shape.block? here
  exact ⟨code', there, keeps.follows.alike visited here there⟩

/-- A copy made before a loop is carried into it. -/
theorem propagation_preserves_runs_loop :
    let sum (x : Fin 32) := Instr.ofCommand 3
      (.ofOpcode .addu [.reg (.general 10), .reg (.general x), .reg (.general x)])
    let code := [.ofCommand 1 (.copy (.general 8) (.general 9)), ⟨2, .label "L", "", []⟩, sum 8,
      .ofCommand 4 (.ofOpcode .bne [.reg (.general 10), .reg Reg.zero, .sym "L"]),
      .ofCommand 5 (.ofOpcode .jr [.reg Reg.link])]
    let g := Graph.build code
    let g' := (Propagation.run false (Facts.analyze g Reg.alwaysReserved) g 0).graph
    let I := Words.meaning fun here i =>
      if i.operands.head? = some (.value 0) then some (here + 1) else some 1
    let s : MachineState Word Memory := ⟨fun _ => 7, fun _ => 0⟩
    (g'.block? 1).map (fun b => b.code[1]?) = some (some (sum 9)) ∧
      I.visit g' 0 s 3 = I.visit g 0 s 3 := by
  intro sum code g g' I s
  refine ⟨by decide +kernel, ?_⟩
  have isFirst : g.block? 0 = some
      { id := 0, code := [.ofCommand 1 (.copy (.general 8) (.general 9))], succ := [1] } := by
    decide +kernel
  exact (propagation_preserves_runs (fun _ _ => rfl) (by decide) (by decide +kernel) isFirst
    (Or.inl rfl) false 0 s).1 3

end Propagation

end MipsFlow
