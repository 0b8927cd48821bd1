import MipsFlow.Proofs.CopyPaths
import MipsFlow.Proofs.PropagationPass

/-!
# Copies that are carried into other blocks

Copy propagation carries a copy into a successor if the facts say that it is available there, and
the facts were computed before the graph began to change. The `pushes` of a block are all that is
carried out of it: no other block changes (`block?_run`). `pushes_available`: at the moment of a
push, new facts would have the copy available, too.

Facts about copies are the greatest ones that the equations allow
(`Problem.Must.mem_exitOf_of_supported`), so it is enough that the places where the old facts have
the copy support each other in the graph as it is. They do: code that reads through other copies may
write the same registers as before, and still makes the copy (`Retains`), unless it read the
destination of a copy that was carried out before. But a copy is carried out only if it holds at the
end of its block, and then no later copy of the block reads its destination any more
(`Carries.ahead`).
-/

namespace MipsFlow

/-! ## Copies of a block -/

namespace Copies

variable {reserved : FactSet Reg} {code : List Instr} {c : Copy} {p : Instr}

/-- A copy is made by code that makes it somewhere and does not touch it behind. -/
theorem mem_madeBy_of_makes {i : Nat} (here : code[i]? = some p)
    (makes : Copy.of? reserved p = some c)
    (kept : ∀ q ∈ code.drop (i + 1), c.touches q.clobbers = false) : c ∈ madeBy reserved code := by
  obtain ⟨inside, rfl⟩ := List.getElem?_eq_some_iff.1 here
  refine mem_madeBy.2 ⟨code.take i, code[i], code.drop (i + 1), ?_, makes, fun q behind => ?_⟩
  · rw [← List.drop_eq_getElem_cons inside, List.take_append_drop]
  · simp [kept q behind]

end Copies

namespace Propagation

/-! ## Code that reads through copies -/

section Reading

variable {annotated : Bool} {c e : Copy} {note : String} {reserved : FactSet Reg} {gone : List Reg}
variable {p q : Instr} {code a b : List Instr} {n : Nat}

/-- The second instruction may write what the first may write, and makes its copy, unless that reads
one of the given registers. -/
structure Retains (reserved : FactSet Reg) (gone : List Reg) (p q : Instr) : Prop where
  clobbers : q.clobbers = p.clobbers
  copies : ∀ c, Copy.of? reserved p = some c → c.src ∉ gone → Copy.of? reserved q = some c

namespace Retains

theorem refl (p : Instr) : Retains reserved gone p p := ⟨rfl, fun _ makes _ => makes⟩

theorem trans {r : Instr} (first : Retains reserved gone p q) (second : Retains reserved gone q r) :
    Retains reserved gone p r :=
  ⟨second.clobbers.trans first.clobbers,
    fun c makes kept => second.copies c (first.copies c makes kept) kept⟩

theorem mono {gone' : List Reg} (retains : Retains reserved gone p q)
    (more : ∀ r ∈ gone, r ∈ gone') : Retains reserved gone' p q :=
  ⟨retains.clobbers, fun c makes kept => retains.copies c makes fun read => kept (more _ read)⟩

/-- What no instruction may write, the instructions that retain them may not write either. -/
theorem untouched (retains : List.Forall₂ (Retains reserved gone) a b)
    (kept : ∀ p ∈ a, c.touches p.clobbers = false) : ∀ q ∈ b, c.touches q.clobbers = false := by
  induction retains with
  | nil => exact kept
  | cons here _ ih =>
    obtain ⟨first, later⟩ := List.forall_mem_cons.1 kept
    refine List.forall_mem_cons.2 ⟨?_, ih later⟩
    rw [here.clobbers]
    exact first

theorem trans_all {d : List Instr} (first : List.Forall₂ (Retains reserved gone) a b)
    (second : List.Forall₂ (Retains reserved gone) b d) :
    List.Forall₂ (Retains reserved gone) a d := by
  induction first generalizing d with
  | nil => exact second
  | cons here _ ih =>
    cases second with
    | cons here' later => exact .cons (here.trans here') (ih later)

end Retains

/-- Code that retains what it may write and the copies that it makes still makes a copy. -/
theorem mem_madeBy_of_retains (retains : List.Forall₂ (Retains reserved gone) a b)
    (kept : c.src ∉ gone) (member : c ∈ Copies.madeBy reserved a) :
    c ∈ Copies.madeBy reserved b := by
  rw [Copies.mem_madeBy, Copy.LastsIn] at member ⊢
  induction retains with
  | nil => exact member
  | cons first later ih =>
    refine Lasts.cons_iff.2 ((Lasts.cons_iff.1 member).imp ih (And.imp ?_ ?_))
    · intro free
      simp only [Bool.not_eq_true] at free ⊢
      exact Retains.untouched later free
    · exact fun makes => first.copies c makes kept

/-- A copy that does not read the destination of another one is not reread. -/
theorem reread_of_makes (makes : Copy.of? reserved p = some e) (other : e.src ≠ c.dst) :
    reread annotated c note p = p := by
  have command := (Copy.of?_eq_some makes).1
  refine Rereads.reread_eq_self command ?_
  have sites : p.readSites = [⟨1, e.src⟩] := by
    rw [Instr.readSites, command]
    rfl
  simp [sites, other]

/-- Code that reads through a copy retains the rest. -/
theorem Rereads.retains (rereads : Rereads annotated c note a b n)
    (separate : ∀ p ∈ a, p.isSeparate = true) (isGone : c.dst ∈ gone) :
    List.Forall₂ (Retains reserved gone) a b := by
  induction rereads with
  | stop code => exact List.forall₂_same.2 fun p _ => .refl p
  | keep _ ih => exact .cons (.refl _) (ih (List.forall_mem_cons.1 separate).2)
  | read command aside _ ih =>
    obtain ⟨first, later⟩ := List.forall_mem_cons.1 separate
    refine .cons ⟨clobbers_reread annotated note first command aside, fun e makes kept => ?_⟩
      (ih later)
    rwa [reread_of_makes makes (ne_of_mem_of_not_mem isGone kept).symm]

/-- A command that becomes a copy when it is renamed was that copy, or reads the new register
now. -/
theorem copy_of_renameReads {d : Command} {x y u w : Reg}
    (renamed : d.renameReads u w = .copy x y) : d = .copy x y ∧ y ≠ u ∨ y = w := by
  have known : d.form? = some .unary := by
    rw [← Command.form?_renameReads (a := u) (b := w), renamed]
    rfl
  have isMove : d.mnemonic = .known .move := congrArg Command.mnemonic renamed
  have length : d.args.length = 2 := by
    rw [← Command.length_renameReads (a := u) (b := w), renamed]
    rfl
  obtain ⟨first, second, args⟩ := List.length_eq_two.1 length
  have operands : (d.renameReads u w).args = [.reg x, .reg y] := by rw [renamed]; rfl
  simp only [Command.renameReads, known, args, List.zipIdx_cons, List.zipIdx_nil, List.map_cons,
    List.map_nil, List.cons.injEq, and_true] at operands
  obtain ⟨isFirst, isSecond⟩ := operands
  have sameFirst : first = .reg x := by
    cases first with
    | reg r => simpa [Command.readAt?, Form.unary] using isFirst
    | mem offset base => split at isFirst <;> cases isFirst
    | imm _ | sym _ => simp [Command.readAt?] at isFirst
  split at isSecond
  · right
    cases second <;> simp [Operand.withBase] at isSecond
    exact isSecond.symm
  · next unread =>
    left
    subst isSecond
    obtain ⟨mnemonic, operands⟩ := d
    simp only at isMove args
    rw [isMove, args, sameFirst]
    refine ⟨rfl, fun isOld => unread ?_⟩
    rw [isOld]
    rfl

/-- An instruction that makes a copy when it is reread made it before, and did not read the
destination; or it copies the source now. -/
theorem makes_of_reread (makes : Copy.of? reserved (reread annotated c note p) = some e) :
    Copy.of? reserved p = some e ∧ e.src ≠ c.dst ∨ e.src = c.src := by
  have command := (Copy.of?_eq_some makes).1
  rw [map_command?_reread] at command
  obtain ⟨d, old, renamed⟩ := Option.map_eq_some_iff.1 command
  refine (copy_of_renameReads renamed).imp_left fun ⟨isCopy, other⟩ => ⟨?_, other⟩
  have same : p.command? = (reread annotated c note p).command? := by
    rw [map_command?_reread, old, Option.map_some, renamed, isCopy]
  rw [← makes]
  unfold Copy.of? Instr.copy?
  rw [same]

/-- Reading through a copy, code makes the copies that it has made, and copies of the source. -/
theorem Rereads.src_not_mem (rereads : Rereads annotated c note a b n) (free : c.src ∉ gone)
    (old : ∀ p ∈ a, ∀ e, Copy.of? reserved p = some e → e.src ∉ gone) :
    ∀ q ∈ b, ∀ e, Copy.of? reserved q = some e → e.src ∉ gone := by
  intro q member e makes
  rcases rereads.of_mem member with before | ⟨p, before, rfl⟩
  · exact old q before e makes
  · rcases makes_of_reread makes with makes | isSource
    · exact old p before e makes.1
    · rwa [isSource]

/-- Code that a copy is spread to the end of does not touch it, and makes no copies of its
destination. -/
theorem spread_holds (reserved : FactSet Reg) (differ : c.dst ≠ c.src)
    (holds : (spread annotated c note code).holds = true) :
    ∀ q ∈ (spread annotated c note code).code, c.touches q.clobbers = false ∧
      ∀ e, Copy.of? reserved q = some e → e.src ≠ c.dst := by
  induction code with
  | nil =>
    intro q member
    simp [spread] at member
  | cons p rest ih =>
    cases command : p.command? with
    | none =>
      rw [spread_cons_of_none command] at holds ⊢
      refine List.forall_mem_cons.2 ⟨⟨?_, ?_⟩, ih holds⟩
      · simp [Instr.clobbers, command, Copy.touches]
      · intro e makes
        simp [Copy.of?, Instr.copy?, command] at makes
    | some d =>
      rw [spread_cons d command] at holds ⊢
      split at holds
      · simp at holds
      · next aside =>
        rw [if_neg aside]
        split at holds
        · simp at holds
        · next keeps =>
          rw [if_neg keeps]
          refine List.forall_mem_cons.2 ⟨⟨?_, fun e makes => ?_⟩, ih holds⟩
          · rw [Copy.touches_eq_false]
            simpa [Instr.mayWrite] using keeps
          · rcases makes_of_reread makes with ⟨-, other⟩ | isSource
            · exact other
            · rw [isSource]
              exact differ.symm

/-- A copy that is spread over code which makes it goes no further than there. -/
theorem spread_drop (annotated : Bool) (note : String) {i : Nat} (here : code[i]? = some p)
    (makes : Copy.of? reserved p = some c) :
    (spread annotated c note code).code.drop i = code.drop i := by
  obtain ⟨isCopy, differ, -⟩ := Copy.of?_eq_some makes
  induction code generalizing i with
  | nil => simp at here
  | cons q rest ih =>
    cases i with
    | zero =>
      obtain rfl := Option.some.inj here
      have known : (Command.copy c.dst c.src).isForeign = false := rfl
      have writes : (reread annotated c note q).mayWrite c.dst = true := by
        rw [reread_of_makes makes differ.symm, Instr.mayWrite, Instr.clobbers, isCopy]
        simp
      rw [spread_cons _ isCopy, known, writes, reread_of_makes makes differ.symm]
      rfl
    | succ i =>
      have later := ih here
      cases command : q.command? with
      | none =>
        rw [spread_cons_of_none command]
        exact later
      | some d =>
        rw [spread_cons d command]
        split
        · rfl
        · split
          · rfl
          · exact later

end Reading

/-! ## Carrying copies out of a block -/

/-- A copy is carried into a block of the graph as it is at that moment. -/
structure Push where
  graph : Graph
  copy : Copy
  target : Nat

/-- The pushes of a copy into some blocks, one after the other. -/
def pushesInto (annotated : Bool) (f : Facts) (source : Nat) (p : Instr) (c : Copy) :
    State → List Nat → List Push
  | _, [] => []
  | s, id :: ids =>
    (if (s.graph.block? id).any (f.available · c) then [⟨s.graph, c, id⟩] else []) ++
      pushesInto annotated f source p c (enter annotated f source p c s id) ids

/-- The pushes of the copies at some positions of a block. -/
def pushesAt (annotated : Bool) (f : Facts) (id : Nat) : State → List Nat → List Push
  | _, [] => []
  | s, i :: is =>
    ((depart? annotated f id s i).elim [] fun d =>
        pushesInto annotated f id d.instr d.copy d.state d.onward) ++
      pushesAt annotated f id (propagate annotated f id s i) is

/-- The pushes of all copies of a block. -/
def pushes (annotated : Bool) (f : Facts) (g : Graph) (id : Nat) : List Push :=
  match g.block? id with
  | none => []
  | some b => pushesAt annotated f id { graph := g } (List.range b.code.length)

/-- What has become of a graph when the copies of the block `source` before position `i` have been
propagated, and those of the registers `gone` carried out. -/
structure Carries (f : Facts) (g : Graph) (source : Nat) (gone : List Reg) (i : Nat) (st : State) :
    Prop where
  tracks : Tracks f g source st
  others : ∀ {id : Nat} {b b' : Block}, id ≠ source → g.block? id = some b →
    st.graph.block? id = some b' → List.Forall₂ (Retains f.reserved gone) b.code b'.code
  /-- The copies that are left read none of the registers. -/
  ahead : ∀ {b : Block}, st.graph.block? source = some b → ∀ p ∈ b.code.drop i, ∀ c,
    Copy.of? f.reserved p = some c → c.src ∉ gone

/-- The instruction at position `i` of the block `source` makes a copy that nothing behind it
touches, and that is being carried out. -/
structure Leaving (f : Facts) (source : Nat) (gone : List Reg) (i : Nat) (p : Instr) (c : Copy)
    (st : State) : Prop where
  makes : Copy.of? f.reserved p = some c
  isGone : c.dst ∈ gone
  free : c.src ∉ gone
  made : ∃ b, st.graph.block? source = some b ∧ b.code[i]? = some p ∧
    ∀ q ∈ b.code.drop (i + 1), c.touches q.clobbers = false

section Carrying

variable {annotated : Bool} {f : Facts} {g : Graph} {source i : Nat} {gone : List Reg} {st : State}
variable {p : Instr} {c : Copy}

theorem Carries.initial : Carries f g source [] 0 { graph := g } := by
  refine ⟨.initial, ?_, fun _ _ _ _ _ => List.not_mem_nil⟩
  intro id b b' _ here there
  cases here.symm.trans there
  exact List.forall₂_same.2 fun p _ => .refl p

/-- Spreading a copy to the end of its block. If it goes on, nothing behind it touches it, and no
copy behind it reads its destination. -/
theorem Carries.depart (carries : Carries f g source gone i st) (separate : g.IsSeparate)
    (reserves : ∀ r ∈ Reg.alwaysReserved, r ∈ f.reserved) {d : Departure}
    (departs : depart? annotated f source st i = some d) :
    ∃ gone', Carries f g source gone' (i + 1) d.state ∧
      (d.onward ≠ [] → Leaving f source gone' i d.instr d.copy d.state) := by
  have tracks := (carries.tracks.depart separate reserves departs).1
  obtain ⟨b, here, isHere, makes, isState, onward⟩ := depart?_eq_some departs
  obtain ⟨-, differ, -⟩ := Copy.of?_eq_some makes
  let sp := spread annotated d.copy ("copy propagated: " ++ d.instr.text) (b.code.drop (i + 1))
  have rereads : Rereads annotated d.copy _ (b.code.drop (i + 1)) sp.code sp.count :=
    spread_rereads annotated d.copy ("copy propagated: " ++ d.instr.text) (b.code.drop (i + 1))
  have inside : i < b.code.length := (List.getElem?_eq_some_iff.1 isHere).1
  have isCode : d.state.graph.block? source =
      some { b with code := b.code.take (i + 1) ++ sp.code } := by
    rw [isState]
    exact Graph.block?_setCode_self here
  have behind : (b.code.take (i + 1) ++ sp.code).drop (i + 1) = sp.code :=
    List.drop_left' (List.length_take_of_le inside)
  have elsewhere : ∀ {id : Nat}, id ≠ source → d.state.graph.block? id = st.graph.block? id := by
    intro id isOther
    rw [isState]
    exact Graph.block?_setCode_of_ne isOther
  have left : b.code.drop i = d.instr :: b.code.drop (i + 1) := by
    rw [List.drop_eq_getElem_cons inside, (List.getElem_eq_iff inside).2 isHere]
  have free : d.copy.src ∉ gone := by
    refine carries.ahead here d.instr ?_ d.copy makes
    rw [left]
    exact List.mem_cons_self ..
  have ahead : ∀ q ∈ sp.code, ∀ e, Copy.of? f.reserved q = some e → e.src ∉ gone := by
    refine rereads.src_not_mem free fun q later => carries.ahead here q ?_
    rw [left]
    exact List.mem_cons_of_mem _ later
  rcases onward with none | ⟨holds, -⟩
  · refine ⟨gone, ⟨tracks, ?_, ?_⟩, fun some => absurd none some⟩
    · intro id b₁ b₂ isOther old new
      exact carries.others isOther old ((elsewhere isOther).symm.trans new)
    · intro b' there
      cases isCode.symm.trans there
      simpa only [behind] using ahead
  · have held := spread_holds f.reserved differ holds
    refine ⟨d.copy.dst :: gone, ⟨tracks, ?_, ?_⟩, fun _ => ⟨makes, List.mem_cons_self .., ?_, ?_⟩⟩
    · intro id b₁ b₂ isOther old new
      refine (carries.others isOther old ((elsewhere isOther).symm.trans new)).imp ?_
      exact fun _ _ retains => retains.mono fun _ => List.mem_cons_of_mem _
    · intro b' there q later e isMade
      cases isCode.symm.trans there
      simp only [behind] at later
      rw [List.mem_cons, not_or]
      exact ⟨(held q later).2 e isMade, ahead q later e isMade⟩
    · rw [List.mem_cons, not_or]
      exact ⟨differ.symm, free⟩
    · refine ⟨_, isCode, ?_, fun q later => (held q ?_).1⟩
      · rw [List.getElem?_append_left (by rw [List.length_take_of_le inside]; omega),
          List.getElem?_take_of_lt (Nat.lt_succ_self i), isHere]
      · rwa [behind] at later

/-- Carrying a copy into a block, which may be the one that it comes from. -/
theorem Carries.enter (annotated : Bool) (carries : Carries f g source gone (i + 1) st)
    (separate : g.IsSeparate) (reserves : ∀ r ∈ Reg.alwaysReserved, r ∈ f.reserved)
    (copied : ∀ {P : Instr → Prop}, Rereadable f.reserved P → g.All P → P p)
    (leaving : Leaving f source gone i p c st) (id : Nat) :
    Carries f g source gone (i + 1) (Propagation.enter annotated f source p c st id) ∧
      Leaving f source gone i p c (Propagation.enter annotated f source p c st id) := by
  have tracks : Tracks f g source (Propagation.enter annotated f source p c st id) :=
    carries.tracks.enter reserves leaving.makes copied id
  rcases enter_cases annotated f source p c st id with unchanged | ⟨b, note, here, isNew⟩
  · rw [unchanged]
    exact ⟨carries, leaving⟩
  rw [isNew] at tracks ⊢
  obtain ⟨makes, isGone, free, b₀, isSource, isHere, kept⟩ := leaving
  have others : ∀ {other : Nat}, other ≠ id →
      (st.graph.setCode id (spread annotated c note b.code).code).block? other =
        st.graph.block? other := Graph.block?_setCode_of_ne
  have isCode : (st.graph.setCode id (spread annotated c note b.code).code).block? id =
      some { b with code := (spread annotated c note b.code).code } :=
    Graph.block?_setCode_self here
  by_cases isSelf : id = source
  · -- the copy is spread no further than to where it is made
    subst isSelf
    cases isSource.symm.trans here
    have same := spread_drop annotated note isHere makes
    have behind : (spread annotated c note b.code).code.drop (i + 1) = b.code.drop (i + 1) := by
      rw [← List.drop_drop, ← List.drop_drop, same]
    refine ⟨⟨tracks, ?_, ?_⟩, makes, isGone, free, _, isCode, ?_, ?_⟩
    · intro other b₁ b₂ isOther old new
      exact carries.others isOther old ((others isOther).symm.trans new)
    · intro b' there
      cases isCode.symm.trans there
      rw [behind]
      exact carries.ahead here
    · rw [← isHere, ← Nat.add_zero i, ← List.getElem?_drop, ← List.getElem?_drop, same]
    · rwa [behind]
  · refine ⟨⟨tracks, ?_, ?_⟩, makes, isGone, free, b₀, ?_, isHere, kept⟩
    · intro other b₁ b₂ isOther old new
      by_cases isTarget : other = id
      · subst isTarget
        cases isCode.symm.trans new
        refine Retains.trans_all (carries.others isOther old here) ?_
        exact (spread_rereads annotated c note b.code).retains
          (carries.tracks.kept (rereadable_separate _) separate here) isGone
      · exact carries.others isOther old ((others isTarget).symm.trans new)
    · intro b' there
      exact carries.ahead ((others (Ne.symm isSelf)).symm.trans there)
    · rw [others (Ne.symm isSelf), isSource]

/-- A copy that is being carried out is available, at that moment, wherever the facts had it. -/
theorem Leaving.available {reserved : List Reg} (leaving : Leaving f source gone i p c st)
    (carries : Carries f g source gone (i + 1) st) (regular : g.Regular)
    (sound : f.CopiesSound g (· = source)) (fixed : f.reserved = .ofList reserved) {target : Nat}
    {b : Block} (there : st.graph.block? target = some b)
    (available : c ∈ f.copies.entryOf target) :
    c ∈ (Facts.analyze st.graph reserved).copies.entryOf target := by
  obtain ⟨makes, -, free, b₀, isSource, isHere, kept⟩ := leaving
  have shape := carries.tracks.shape
  have regular' := shape.regular regular
  have must := copies_must st.graph reserved
  -- the blocks that the facts have the copy behind, and the one that makes it, support each other
  let left (id : Nat) : Prop := id = source ∨ c ∈ f.copies.exitOf id
  have comes : ∀ {id : Nat} {b : Block}, st.graph.block? id = some b → c ∈ f.copies.entryOf id →
      ¬ st.graph.ComesIn id ∧ ∀ last, id ∈ st.graph.succ last → left last := by
    intro id b here entered
    obtain ⟨code, old⟩ := shape.symm.block? here
    refine ⟨?_, fun last edge => Or.inr ?_⟩
    · rintro ⟨b', here', comesIn⟩
      cases here.symm.trans here'
      exact sound.start old comesIn entered
    · obtain ⟨before, isLast, goes⟩ :=
        regular.pred_succ old ((Graph.mem_pred_iff regular' here).2 edge)
      exact sound.edge isLast goes entered
  have made : c ∈ Copies.made (.ofList reserved) st.graph.flatten := by
    refine made_subset_flatten isSource ?_
    rw [← fixed]
    exact FactSet.mem_ofList.2 (List.mem_filterMap.2 ⟨p, List.mem_of_getElem? isHere, makes⟩)
  have everywhere : ∀ {id : Nat}, id < st.graph.size → left id →
      c ∈ (Facts.analyze st.graph reserved).copies.exitOf id := by
    refine must.mem_exitOf_of_supported regular' made left fun id b here isLeft => ?_
    rw [mem_gen_copies here, ← fixed]
    by_cases isHome : id = source
    · subst isHome
      cases isSource.symm.trans here
      exact Or.inl (Copies.mem_madeBy_of_makes isHere makes kept)
    · obtain ⟨code, old⟩ := shape.symm.block? here
      have retains := carries.others isHome old here
      rcases sound.block old isHome (isLeft.resolve_left isHome) with ⟨entered, unmade⟩ | made
      · have untouched := Retains.untouched retains unmade
        exact Or.inr ⟨not_mem_kill_copies here untouched, comes here entered⟩
      · exact Or.inl (mem_madeBy_of_retains retains free made)
  obtain ⟨entered, lasts⟩ := comes there available
  refine (must.mem_entryOf regular' there).2 ((must.mem_met_inter regular' there).2 ⟨entered, ?_⟩)
  intro last edge
  obtain ⟨before, isLast⟩ := Graph.block?_of_mem_succ edge
  exact everywhere (Graph.lt_size_of_block? isLast) (lasts last edge)

/-- Carrying a copy into some blocks, one after the other. -/
theorem Carries.enterAll {reserved : List Reg} (annotated : Bool)
    (carries : Carries f g source gone (i + 1) st)
    (leaving : Leaving f source gone i p c st) (regular : g.Regular) (separate : g.IsSeparate)
    (reserves : ∀ r ∈ Reg.alwaysReserved, r ∈ f.reserved)
    (copied : ∀ {P : Instr → Prop}, Rereadable f.reserved P → g.All P → P p)
    (sound : f.CopiesSound g (· = source)) (fixed : f.reserved = .ofList reserved)
    (ids : List Nat) :
    Carries f g source gone (i + 1) (ids.foldl (Propagation.enter annotated f source p c) st) ∧
      ∀ push ∈ pushesInto annotated f source p c st ids,
        push.copy ∈ (Facts.analyze push.graph reserved).copies.entryOf push.target := by
  induction ids generalizing st with
  | nil => exact ⟨carries, fun push none => absurd none List.not_mem_nil⟩
  | cons id ids ih =>
    obtain ⟨carries', leaving'⟩ := carries.enter annotated separate reserves copied leaving id
    obtain ⟨finally', later⟩ := ih carries' leaving'
    refine ⟨finally', fun push member => ?_⟩
    rw [pushesInto, List.mem_append] at member
    rcases member with first | others
    · split at first
      · next available =>
        obtain rfl := List.mem_singleton.1 first
        obtain ⟨b, there, known⟩ := (Option.any_eq_true _ _).1 available
        have place := (carries.tracks.shape.regular regular).place there
        rw [Facts.available, place, FactSet.contains_iff] at known
        exact leaving.available carries regular sound fixed there known
      · exact absurd first List.not_mem_nil
    · exact later push others

/-- Propagating the copies at the positions from `i` on. -/
theorem Carries.pushesAt {reserved : List Reg} (carries : Carries f g source gone i st)
    (regular : g.Regular) (separate : g.IsSeparate)
    (reserves : ∀ r ∈ Reg.alwaysReserved, r ∈ f.reserved)
    (sound : f.CopiesSound g (· = source)) (fixed : f.reserved = .ofList reserved) (n : Nat) :
    ∀ push ∈ Propagation.pushesAt annotated f source st (List.range' i n),
      push.copy ∈ (Facts.analyze push.graph reserved).copies.entryOf push.target := by
  induction n generalizing gone i st with
  | zero => exact fun push none => absurd none List.not_mem_nil
  | succ n ih =>
    intro push member
    rw [List.range'_succ, Propagation.pushesAt, List.mem_append, propagate_eq] at member
    cases departs : depart? annotated f source st i with
    | none =>
      simp only [departs, Option.elim_none, List.not_mem_nil, false_or] at member
      refine ih ⟨carries.tracks, carries.others, fun here q later => ?_⟩ push member
      exact carries.ahead here q (List.mem_of_mem_drop (i := 1) (by rwa [List.drop_drop]))
    | some d =>
      simp only [departs, Option.elim_some] at member
      obtain ⟨-, copied⟩ := carries.tracks.depart separate reserves departs
      obtain ⟨gone', spreads, leaves⟩ := carries.depart separate reserves departs
      by_cases stays : d.onward = []
      · rw [stays] at member
        rcases member with none | later
        · exact absurd none List.not_mem_nil
        · exact ih spreads push later
      · obtain ⟨next, now⟩ := spreads.enterAll annotated (leaves stays) regular separate reserves
          copied sound fixed d.onward
        rcases member with here | later
        · exact now push here
        · exact ih next push later

/-- Whenever propagation carries a copy into a block, facts computed at that moment have the copy
available there. -/
theorem pushes_available {reserved : List Reg} (annotated : Bool) (regular : g.Regular)
    (separate : g.IsSeparate) (reserves : ∀ r ∈ Reg.alwaysReserved, r ∈ f.reserved)
    (sound : f.CopiesSound g (· = source)) (fixed : f.reserved = .ofList reserved) :
    ∀ push ∈ pushes annotated f g source,
      push.copy ∈ (Facts.analyze push.graph reserved).copies.entryOf push.target := by
  unfold pushes
  split
  · exact fun push none => absurd none List.not_mem_nil
  · rw [List.range_eq_range']
    exact Carries.initial.pushesAt regular separate reserves sound fixed _

end Carrying

end Propagation

end MipsFlow
