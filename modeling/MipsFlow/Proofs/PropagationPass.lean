import MipsFlow.Proofs.CopyPropagation
import MipsFlow.Proofs.Lightening
import MipsFlow.Proofs.Wiring

/-!
# Copy propagation in a graph

What copy propagation does to the blocks of a graph, besides leaving its runs as they are
(`Tracks`): it reworks their code, and keeps what is `Rereadable`, so that a graph which the machine
runs is recoded. As long as no other block has changed, the code of the source block needs no other
registers than before, because a command that reads the source of a copy stands behind the copy,
which reads it as well.
-/

namespace MipsFlow

namespace Machine

variable {c : Command} {a b : Reg}

theorem source_renamed {form? : Option Form} {i : Nat} {x : Operand} (source : Source x)
    (named : Named b) :
    Source (if Command.readAt? form? i x = some a then x.withBase b else x) := by
  split
  · cases x with
    | reg r => exact named
    | imm n => trivial
    | mem _ _ => exact source.elim
    | sym _ => exact source.elim
  · exact source

theorem place_renamed (n : Int64) {base : Reg} (isBase : Named base) (named : Named b) :
    ∃ base', Named base' ∧ (if some base = some a then (Operand.mem (.number n) base).withBase b
      else .mem (.number n) base) = .mem (.number n) base' := by
  split
  · exact ⟨b, named, rfl⟩
  · exact ⟨base, isBase, rfl⟩

/-- The machine runs a renamed command. -/
theorem Understood.renameReads (understood : Understood c) (named : Named b)
    (aside : a ≠ Reg.link) : Understood (c.renameReads a b) := by
  cases understood with
  | literal d n target => exact .literal d n target
  | move d x target source => exact .move d _ target (source_renamed source named)
  | compute op d x y member target left right =>
    have understood := Understood.compute op d
      (if Command.readAt? (some .binary) 1 x = some a then x.withBase b else x)
      (if Command.readAt? (some .binary) 2 y = some a then y.withBase b else y) member target
      (source_renamed left named) (source_renamed right named)
    simp only [operations, List.mem_cons, List.not_mem_nil, or_false] at member
    rcases member with rfl | rfl | rfl | rfl | rfl | rfl | rfl | rfl <;> exact understood
  | multiply x y left right =>
    exact .multiply _ _ (source_renamed left named) (source_renamed right named)
  | fetch d target => exact .fetch d target
  | store x n base source isBase =>
    obtain ⟨base', isBase', renamed⟩ := place_renamed (a := a) n isBase named
    have understood := Understood.store
      (if Command.readAt? (some .use) 0 x = some a then x.withBase b else x) n base'
      (source_renamed source named) isBase'
    rw [← renamed] at understood
    exact understood
  | load d n base target isBase =>
    obtain ⟨base', isBase', renamed⟩ := place_renamed (a := a) n isBase named
    have understood := Understood.load d n base' target isBase'
    rw [← renamed] at understood
    exact understood
  | branch op x y label isBranch left right =>
    have understood := Understood.branch op
      (if Command.readAt? (some .useBoth) 0 x = some a then x.withBase b else x)
      (if Command.readAt? (some .useBoth) 1 y = some a then y.withBase b else y) label isBranch
      (source_renamed left named) (source_renamed right named)
    rcases isBranch with rfl | rfl <;> exact understood
  | jump label => exact .jump label
  | ret op isJump =>
    have kept : (Command.ofOpcode op [.reg Reg.link]).renameReads a b =
        .ofOpcode op [.reg Reg.link] := by
      have other : ¬ some Reg.link = some a := fun same => aside (Option.some.inj same).symm
      rcases isJump with rfl | rfl <;>
        exact congrArg (fun o => Command.ofOpcode _ [o]) (if_neg other)
    rw [kept]
    exact .ret op isJump

end Machine

namespace Command

variable {c : Command} {a b : Reg}

/-- A renamed command leaves a block in the same way, as long as returns are left alone. -/
theorem exit_renameReads (aside : a ≠ Reg.link) (aside' : b ≠ Reg.link) :
    (c.renameReads a b).exit = c.exit := by
  have target : (c.renameReads a b).target? = c.target? := by
    have jumps : (c.renameReads a b).isJump = c.isJump := rfl
    unfold Command.target?
    rw [jumps, List.getLast?_eq_getElem?, List.getLast?_eq_getElem?, length_renameReads,
      getElem?_renameReads]
    cases c.args[c.args.length - 1]? with
    | none => rfl
    | some o =>
      rw [Option.map_some]
      by_cases read : readAt? c.form? (c.args.length - 1) o = some a
      · rw [if_pos read]
        cases o <;> rfl
      · rw [if_neg read]
  have returns : (c.renameReads a b).args = [.reg Reg.link] ↔ c.args = [.reg Reg.link] := by
    constructor
    · intro renamed
      have single : c.args.length = 1 := by
        rw [← length_renameReads (a := a) (b := b), renamed]
        rfl
      obtain ⟨o, args⟩ := List.length_eq_one_iff.1 single
      have first := getElem?_renameReads (c := c) (a := a) (b := b) 0
      rw [renamed, args] at first
      simp only [List.getElem?_cons_zero, Option.map_some, Option.some.injEq] at first
      split at first
      · cases o <;> simp [Operand.withBase] at first
        exact absurd first.symm aside'
      · rw [args, first]
    · intro args
      have unread : readAt? c.form? 0 (.reg Reg.link) ≠ some a := by
        simp only [readAt?]
        split
        · exact fun same => aside (Option.some.inj same).symm
        · exact fun same => by cases same
      refine List.ext_getElem? fun i => ?_
      rw [getElem?_renameReads, args]
      cases i with
      | zero => rw [List.getElem?_cons_zero, Option.map_some, if_neg unread]
      | succ i => rfl
  unfold Command.exit Command.isReturn
  rw [target, op?_renameReads]
  simp only [returns]

/-- A renamed command names the new register, and otherwise what it has named. -/
theorem mem_names_renameReads {r : Reg} (named : r ∈ (c.renameReads a b).names) :
    r = b ∨ r ∈ c.names := by
  obtain ⟨o, present, isBase⟩ := List.mem_filterMap.1 named
  obtain ⟨i, here⟩ := List.mem_iff_getElem?.1 present
  rw [getElem?_renameReads] at here
  obtain ⟨old, isOld, rfl⟩ := Option.map_eq_some_iff.1 here
  split at isBase
  · cases old <;> simp [Operand.withBase, Operand.base?] at isBase
    all_goals exact Or.inl isBase.symm
  · exact Or.inr (List.mem_filterMap.2 ⟨old, List.mem_of_getElem? isOld, isBase⟩)

end Command

namespace Propagation

/-! ## Reading through a copy -/

/-- In the second piece of code, some commands of the first read the source of the copy for its
destination, at so many places. -/
inductive Rereads (annotated : Bool) (c : Copy) (note : String) :
    List Instr → List Instr → Nat → Prop
  | stop (code : List Instr) : Rereads annotated c note code code 0
  | keep {p : Instr} {a b : List Instr} {n : Nat} : Rereads annotated c note a b n →
    Rereads annotated c note (p :: a) (p :: b) n
  | read {p : Instr} {d : Command} {a b : List Instr} {n : Nat} : p.command? = some d →
    (d.isForeign = true → c.dst ∉ d.uses) → Rereads annotated c note a b n →
    Rereads annotated c note (p :: a) (reread annotated c note p :: b)
      (p.readSites.countP (·.reg = c.dst) + n)

variable {annotated : Bool} {c : Copy} {note : String} {a b code : List Instr} {n : Nat}

theorem spread_rereads (annotated : Bool) (c : Copy) (note : String) (code : List Instr) :
    Rereads annotated c note code (spread annotated c note code).code
      (spread annotated c note code).count := by
  induction code with
  | nil => exact .stop []
  | cons p rest ih =>
    cases command : p.command? with
    | none =>
      rw [spread_cons_of_none command]
      simpa [Spread.push] using ih.keep
    | some d =>
      rw [spread_cons d command]
      split
      · exact .stop _
      · next aside =>
        have unread := not_mem_uses_of_aside command aside
        split
        · exact (Rereads.stop rest).read command unread
        · exact ih.read command unread

namespace Rereads

theorem reread_eq_self {p : Instr} {d : Command} (command : p.command? = some d)
    (unread : p.readSites.countP (·.reg = c.dst) = 0) : reread annotated c note p = p := by
  have sites : ∀ site ∈ d.readSites, site.reg ≠ c.dst := by
    have none := List.countP_eq_zero.1 unread
    intro site member
    have isSite : site ∈ p.readSites := by simpa [Instr.readSites, command] using member
    simpa using none site isSite
  have content : p.content = .command d := by
    unfold Instr.command? at command
    split at command
    · next isContent =>
      cases command
      exact isContent
    · contradiction
  have renamed : p.renameReads c.dst c.src = p := by
    rw [Instr.renameReads_of_command command]
    simp only [Command.renameReads_of_no_site sites, Instr.withCommand, ← content]
  unfold reread
  rw [renamed, unread]
  simp

/-- Nothing changes if nothing is read in another place. -/
theorem eq_of_count (rereads : Rereads annotated c note a b n) (none : n = 0) : b = a := by
  induction rereads with
  | stop => rfl
  | keep _ ih => rw [ih none]
  | read command _ _ ih =>
    obtain ⟨unread, rest⟩ := Nat.add_eq_zero_iff.1 none
    rw [ih rest, reread_eq_self command unread]

theorem length_eq (rereads : Rereads annotated c note a b n) : b.length = a.length := by
  induction rereads with
  | stop => rfl
  | keep _ ih | read _ _ _ ih => rw [List.length_cons, List.length_cons, ih]

theorem reworked (rereads : Rereads annotated c note a b n) (aside : c.dst ≠ Reg.link)
    (aside' : c.src ≠ Reg.link) : Reworked a b := by
  induction rereads with
  | stop code => exact .refl code
  | keep _ ih => exact ih.cons _
  | @read p d a b n command _ _ ih =>
    have renamed := command?_reread annotated c note command
    have jumps : (d.renameReads c.dst c.src).isJump = d.isJump := rfl
    refine Reworked.trans (b := reread annotated c note p :: a) ?_ (ih.cons _)
    cases isJump : d.isJump with
    | true =>
      exact .jump [] a command renamed isJump (jumps.trans isJump)
        (Command.exit_renameReads aside aside')
    | false =>
      have plain := Instr.isPlain_of_command command isJump
      have plain' := Instr.isPlain_of_command renamed (jumps.trans isJump)
      have exchange : Reworked ([] ++ [p] ++ a) ([] ++ [reread annotated c note p] ++ a) :=
        .window [] a (by simp) (by simpa using plain) (by simpa using plain')
      exact exchange

/-- Every instruction was there, or is reread. -/
theorem of_mem (rereads : Rereads annotated c note a b n) {q : Instr} (member : q ∈ b) :
    q ∈ a ∨ ∃ p ∈ a, q = reread annotated c note p := by
  induction rereads with
  | stop => exact Or.inl member
  | keep _ ih =>
    rcases List.mem_cons.1 member with rfl | later
    · exact Or.inl (List.mem_cons_self ..)
    · refine (ih later).imp (List.mem_cons_of_mem _) ?_
      exact fun ⟨p, inside, isReread⟩ => ⟨p, List.mem_cons_of_mem _ inside, isReread⟩
  | read _ _ _ ih =>
    rcases List.mem_cons.1 member with rfl | later
    · exact Or.inr ⟨_, List.mem_cons_self .., rfl⟩
    · refine (ih later).imp (List.mem_cons_of_mem _) ?_
      exact fun ⟨p, inside, isReread⟩ => ⟨p, List.mem_cons_of_mem _ inside, isReread⟩

/-- Only the source of the copy may be needed besides what was needed before. -/
theorem live (rereads : Rereads annotated c note a b n) (aside : c.dst ≠ Reg.link)
    (aside' : c.src ≠ Reg.link) (separate : ∀ p ∈ a, p.isSeparate = true)
    {reserved out : FactSet Reg} {unresolved : Bool} {r : Reg}
    (member : r ∈ Liveness.liveIn reserved unresolved out b) :
    r = c.src ∨ r ∈ Liveness.liveIn reserved unresolved out a := by
  induction rereads with
  | stop => exact Or.inr member
  | keep rereads ih =>
    obtain ⟨-, later⟩ := List.forall_mem_cons.1 separate
    rw [Liveness.mem_liveIn_cons, Liveness.usesBefore_of_length rereads.length_eq] at member
    rw [Liveness.mem_liveIn_cons]
    rcases member with read | ⟨live, kept⟩
    · exact Or.inr (Or.inl read)
    · exact (ih later live).imp_right fun live => Or.inr ⟨live, kept⟩
  | @read p d a b n command _ rereads ih =>
    obtain ⟨first, later⟩ := List.forall_mem_cons.1 separate
    have isSeparate : d.isSeparate = true := by simpa [Instr.isSeparate, command] using first
    have renamed := command?_reread annotated c note command
    have jumps : (reread annotated c note p).isJump = p.isJump := by
      rw [Instr.isJump_of_command renamed, Instr.isJump_of_command command]
      rfl
    rw [Liveness.mem_liveIn_cons, Liveness.usesBefore_of_length rereads.length_eq,
      Liveness.mem_usesBefore, jumps, uses_of_command renamed, defs_of_command renamed,
      Command.defs_renameReads (Command.updates_of_separate isSeparate),
      ← defs_of_command command] at member
    rw [Liveness.mem_liveIn_cons, Liveness.mem_usesBefore, uses_of_command command]
    rcases member with (read | isForced) | ⟨live, kept⟩
    · have returns := congrArg Exit.returns (Command.exit_renameReads (c := d) aside aside')
      exact (Command.mem_uses_renameReads returns read).imp_right fun read => Or.inl (Or.inl read)
    · exact Or.inr (Or.inl (Or.inr isForced))
    · exact (ih later live).imp_right fun live => Or.inr ⟨live, kept⟩

end Rereads

theorem map_command?_reread (annotated : Bool) (c : Copy) (note : String) (p : Instr) :
    (reread annotated c note p).command? =
      p.command?.map fun d => d.renameReads c.dst c.src := by
  cases command : p.command? with
  | none =>
    have unread : p.readSites = [] := by simp [Instr.readSites, command]
    simp [reread, unread, Instr.renameReads, command]
  | some d => exact command?_reread annotated c note command

/-- What holds of all instructions still does when some read through a copy that one of them
makes. -/
def Rereadable (reserved : FactSet Reg) (P : Instr → Prop) : Prop :=
  ∀ {p q : Instr} {c : Copy} (annotated : Bool) (note : String), P p → P q →
    Copy.of? reserved q = some c → P (reread annotated c note p)

/-- No copy that is followed involves the link register. -/
theorem aside_of_makes {reserved : FactSet Reg} (reserves : ∀ r ∈ Reg.alwaysReserved, r ∈ reserved)
    {p : Instr} (makes : Copy.of? reserved p = some c) : c.dst ≠ Reg.link ∧ c.src ≠ Reg.link := by
  obtain ⟨-, -, free, free'⟩ := Copy.of?_eq_some makes
  have fixed := reserves Reg.link (by decide)
  exact ⟨ne_of_mem_of_not_mem fixed free |>.symm, ne_of_mem_of_not_mem fixed free' |>.symm⟩

/-- The machine runs commands that read through a copy. -/
theorem rereadable_runs {reserved : FactSet Reg}
    (reserves : ∀ r ∈ Reg.alwaysReserved, r ∈ reserved) : Rereadable reserved Machine.Runs := by
  intro p q c annotated note runs runsCopy makes e command
  have named := (runsCopy _ (Copy.of?_eq_some makes).1).copy_inv.2
  rw [map_command?_reread] at command
  obtain ⟨d, old, rfl⟩ := Option.map_eq_some_iff.1 command
  exact (runs d old).renameReads named (aside_of_makes reserves makes).1

theorem rereadable_separate (reserved : FactSet Reg) :
    Rereadable reserved fun p => p.isSeparate = true := by
  intro p q c annotated note separate _ _
  unfold Instr.isSeparate at separate ⊢
  rw [map_command?_reread, Option.all_map]
  simpa [Function.comp_def, Command.isSeparate_renameReads] using separate

theorem rereadable_direct (reserved : FactSet Reg) :
    Rereadable reserved fun p => p.isDirect = true := by
  intro p q c annotated note direct directCopy makes
  obtain ⟨forms, names⟩ := Instr.isDirect_iff.1 direct
  refine Instr.isDirect_iff.2 ⟨fun form known => forms form ?_, fun r named => ?_⟩
  · unfold Instr.form? at known ⊢
    rw [map_command?_reread, Option.bind_map] at known
    simpa only [Function.comp_def, Command.form?_renameReads] using known
  · unfold Instr.names at names named
    rw [map_command?_reread] at named
    cases command : p.command? with
    | none => simp [command] at named
    | some d =>
      simp only [command, Option.map_some, Option.elim_some] at names named
      rcases Command.mem_names_renameReads named with rfl | old
      · refine (Instr.isDirect_iff.1 directCopy).2 _ ?_
        rw [Instr.names_of_command (Copy.of?_eq_some makes).1]
        simp [Command.names, Command.copy, Command.ofOpcode, Operand.base?]
      · exact names r old

/-! ## The graph under work -/

/-- A copy that has been spread to the end of its block. -/
structure Departure where
  state : State
  instr : Instr
  copy : Copy
  /-- The successors that the copy goes on to. -/
  onward : List Nat

/-- Spreads the copy at position `i` of a block, if there is one. -/
def depart? (annotated : Bool) (f : Facts) (id : Nat) (s : State) (i : Nat) : Option Departure :=
  (s.graph.block? id).bind fun b => (b.code[i]?).bind fun p =>
    (Copy.of? f.reserved p).map fun c =>
      let spread := spread annotated c ("copy propagated: " ++ p.text) (b.code.drop (i + 1))
      { state := { s with
          graph := s.graph.setCode id (b.code.take (i + 1) ++ spread.code)
          changed := s.changed || spread.count ≠ 0 }
        instr := p
        copy := c
        onward := if spread.holds && f.reaches b p then b.succ else [] }

/-- Propagating a copy spreads it, and carries it into the successors. -/
theorem propagate_eq (annotated : Bool) (f : Facts) (id : Nat) (s : State) (i : Nat) :
    propagate annotated f id s i = (depart? annotated f id s i).elim s fun d =>
      d.onward.foldl (enter annotated f id d.instr d.copy) d.state := by
  unfold propagate depart?
  cases s.graph.block? id with
  | none => rfl
  | some b =>
    simp only [Option.bind_some]
    cases b.code[i]? with
    | none => rfl
    | some p =>
      simp only [Option.bind_some]
      cases Copy.of? f.reserved p with
      | none => rfl
      | some c =>
        simp only [Option.map_some, Option.elim_some]
        split <;> rfl

/-- What is known of a copy that has been spread. -/
theorem depart?_eq_some {f : Facts} {id i : Nat} {s : State} {d : Departure}
    (departs : depart? annotated f id s i = some d) :
    ∃ b, s.graph.block? id = some b ∧ b.code[i]? = some d.instr ∧
      Copy.of? f.reserved d.instr = some d.copy ∧
      let spread := spread annotated d.copy ("copy propagated: " ++ d.instr.text)
        (b.code.drop (i + 1))
      d.state = ⟨s.graph.setCode id (b.code.take (i + 1) ++ spread.code),
        s.changed || spread.count ≠ 0, s.elsewhere⟩ ∧
      (d.onward = [] ∨ spread.holds = true ∧ d.onward = b.succ) := by
  unfold depart? at departs
  obtain ⟨b, here, atBlock⟩ := Option.bind_eq_some_iff.1 departs
  obtain ⟨p, isHere, atPlace⟩ := Option.bind_eq_some_iff.1 atBlock
  obtain ⟨c, makes, rfl⟩ := Option.map_eq_some_iff.1 atPlace
  refine ⟨b, here, isHere, makes, rfl, ?_⟩
  simp only
  split
  · next guard =>
    exact Or.inr ⟨(Bool.and_eq_true_iff.1 guard).1, rfl⟩
  · exact Or.inl rfl

/-- Carrying a copy into a block changes nothing, or spreads it over the code of the block. -/
theorem enter_cases (annotated : Bool) (f : Facts) (source : Nat) (p : Instr) (c : Copy) (s : State)
    (id : Nat) : enter annotated f source p c s id = s ∨
      ∃ b note, s.graph.block? id = some b ∧ enter annotated f source p c s id =
        ⟨s.graph.setCode id (spread annotated c note b.code).code, true, true⟩ := by
  unfold enter
  split
  · exact Or.inl rfl
  · next b here =>
    split
    · simp only
      split
      · exact Or.inl rfl
      · exact Or.inr ⟨b, _, here, rfl⟩
    · exact Or.inl rfl

/-- What has become of a graph while copies are propagated from the block `source`. -/
structure Tracks (f : Facts) (g : Graph) (source : Nat) (st : State) : Prop where
  shape : g.SameShape st.graph
  reworked : ∀ {id : Nat} {b b' : Block}, g.block? id = some b → st.graph.block? id = some b' →
    Reworked b.code b'.code
  kept : ∀ {P : Instr → Prop}, Rereadable f.reserved P → g.All P → st.graph.All P
  /-- As long as only the source block has changed, it needs no more than before. -/
  live : st.elsewhere = false → (∀ id, id ≠ source → st.graph.block? id = g.block? id) ∧
    ∀ {b b' : Block}, g.block? source = some b → st.graph.block? source = some b' →
      JumpsLast b.code → ∀ {unresolved : Bool} {out : FactSet Reg} {r : Reg},
        r ∈ Liveness.liveIn f.reserved unresolved out b'.code →
        r ∈ Liveness.liveIn f.reserved unresolved out b.code
  same : st.changed = false → st.graph = g

namespace Tracks

variable {f : Facts} {g : Graph} {source : Nat} {st : State} {p : Instr}

theorem initial : Tracks f g source { graph := g } := by
  refine ⟨.refl g, ?_, fun _ all => all, fun _ => ⟨fun _ _ => rfl, ?_⟩, fun _ => rfl⟩
  · intro id b b' here there
    cases here.symm.trans there
    exact .refl _
  · intro b b' here there _ unresolved out r live
    cases here.symm.trans there
    exact live

/-- Exchanging the code of a block for code that comes from it by reworking. -/
theorem setCode {id : Nat} {b : Block} {changed elsewhere : Bool} (tracks : Tracks f g source st)
    (here : st.graph.block? id = some b) (reworked : Reworked b.code code)
    (kept : ∀ {P : Instr → Prop}, Rereadable f.reserved P → g.All P → ∀ p ∈ code, P p)
    (live : elsewhere = false → st.elsewhere = false ∧ id = source ∧ (JumpsLast b.code →
      ∀ {unresolved : Bool} {out : FactSet Reg} {r : Reg},
        r ∈ Liveness.liveIn f.reserved unresolved out code →
        r ∈ Liveness.liveIn f.reserved unresolved out b.code))
    (same : changed = false → st.changed = false ∧ code = b.code) :
    Tracks f g source ⟨st.graph.setCode id code, changed, elsewhere⟩ := by
  refine ⟨tracks.shape.trans (.setCode code), ?_, ?_, fun nowhere => ?_, fun unchanged => ?_⟩
  · intro other c c' isOld isNew
    rcases Graph.block?_setCode_cases here isNew with ⟨rfl, rfl⟩ | ⟨-, same⟩
    · exact (tracks.reworked isOld here).trans reworked
    · exact tracks.reworked isOld same
  · intro P rereadable all
    exact Graph.All.setCode (tracks.kept rereadable all) here (kept rereadable all)
  · obtain ⟨before, rfl, fewer⟩ := live nowhere
    obtain ⟨others, fewer'⟩ := tracks.live before
    refine ⟨fun other isOther => ?_, ?_⟩
    · rw [Graph.block?_setCode_of_ne isOther, others other isOther]
    · intro c c' isOld isNew last unresolved out r member
      rw [Graph.block?_setCode_self here] at isNew
      cases isNew
      have last' := (tracks.reworked isOld here).jumpsLast last
      exact fewer' isOld here last (fewer last' member)
  · obtain ⟨before, rfl⟩ := same unchanged
    rw [Graph.setCode_self here, tracks.same before]

/-- Carrying a copy that is made in the graph into a block. -/
theorem enter (tracks : Tracks f g source st) (reserves : ∀ r ∈ Reg.alwaysReserved, r ∈ f.reserved)
    (makes : Copy.of? f.reserved p = some c)
    (copied : ∀ {P : Instr → Prop}, Rereadable f.reserved P → g.All P → P p) (id : Nat) :
    Tracks f g source (Propagation.enter annotated f source p c st id) := by
  obtain ⟨aside, aside'⟩ := aside_of_makes reserves makes
  rcases enter_cases annotated f source p c st id with unchanged | ⟨b, note, here, isNew⟩
  · rw [unchanged]
    exact tracks
  · rw [isNew]
    have rereads := spread_rereads annotated c note b.code
    refine tracks.setCode here (rereads.reworked aside aside') ?_
      (fun impossible => by cases impossible) fun impossible => by cases impossible
    intro P rereadable all q member
    rcases rereads.of_mem member with old | ⟨q, old, rfl⟩
    · exact tracks.kept rereadable all here q old
    · exact rereadable _ _ (tracks.kept rereadable all here q old) (copied rereadable all) makes

theorem enterAll (tracks : Tracks f g source st)
    (reserves : ∀ r ∈ Reg.alwaysReserved, r ∈ f.reserved) (makes : Copy.of? f.reserved p = some c)
    (copied : ∀ {P : Instr → Prop}, Rereadable f.reserved P → g.All P → P p) (ids : List Nat) :
    Tracks f g source (ids.foldl (Propagation.enter annotated f source p c) st) := by
  induction ids generalizing st with
  | nil => exact tracks
  | cons id ids ih => exact ih (tracks.enter reserves makes copied id)

/-- Behind a copy its source may be needed, but the copy needs it anyway. -/
theorem live_behind {reserved out : FactSet Reg} {unresolved : Bool} {i : Nat} {r : Reg}
    (here : code[i]? = some p) (makes : p.command? = some (.copy c.dst c.src))
    (aside : c.dst ≠ Reg.link) (aside' : c.src ≠ Reg.link)
    (separate : ∀ p ∈ code, p.isSeparate = true) (last : JumpsLast code)
    (live : r ∈ Liveness.liveIn reserved unresolved out
      (code.take (i + 1) ++ (spread annotated c note (code.drop (i + 1))).code)) :
    r ∈ Liveness.liveIn reserved unresolved out code := by
  have rereads := spread_rereads annotated c note (code.drop (i + 1))
  have throughCopy : code.take (i + 1) = code.take i ++ [p] := by
    rw [List.take_add_one, here]
    rfl
  have whole : code = code.take i ++ (p :: code.drop (i + 1)) := by
    conv => lhs; rw [← List.take_append_drop (i + 1) code, throughCopy]
    simp
  have reworked := ((rereads.reworked aside aside').cons p).around (code.take i) []
  rw [List.append_nil, List.append_nil, ← whole] at reworked
  have last' := reworked.jumpsLast last
  rw [throughCopy, List.append_assoc, List.singleton_append,
    Liveness.liveIn_append_of_last last'] at live
  rw [whole] at last ⊢
  rw [Liveness.liveIn_append_of_last last]
  refine Liveness.liveIn_mono (fun q member => ?_) live
  have copies : Liveness.usesBefore unresolved p (code.drop (i + 1)) = [c.src] := by
    rw [Liveness.usesBefore_of_stays
      (Instr.isJump_of_isPlain (Instr.isPlain_of_command makes rfl)), uses_of_command makes,
      Command.uses_copy]
  rw [Liveness.mem_liveIn_cons, Liveness.usesBefore_of_length rereads.length_eq] at member
  rw [Liveness.mem_liveIn_cons]
  rcases member with read | ⟨later, kept⟩
  · exact Or.inl read
  · rcases rereads.live aside aside' (fun q member => separate q (List.mem_of_mem_drop member))
      later with rfl | before
    · rw [copies]
      exact Or.inl (List.mem_singleton_self _)
    · exact Or.inr ⟨before, kept⟩

/-- Spreading a copy to the end of its block. -/
theorem depart (tracks : Tracks f g source st) (separate : g.IsSeparate)
    (reserves : ∀ r ∈ Reg.alwaysReserved, r ∈ f.reserved) {i : Nat} {d : Departure}
    (departs : depart? annotated f source st i = some d) : Tracks f g source d.state ∧
      ∀ {P : Instr → Prop}, Rereadable f.reserved P → g.All P → P d.instr := by
  obtain ⟨b, here, isHere, makes, isState, -⟩ := depart?_eq_some departs
  obtain ⟨aside, aside'⟩ := aside_of_makes reserves makes
  have copied : ∀ {P : Instr → Prop}, Rereadable f.reserved P → g.All P → P d.instr :=
    fun rereadable all => tracks.kept rereadable all here _ (List.mem_of_getElem? isHere)
  have rereads := spread_rereads annotated d.copy ("copy propagated: " ++ d.instr.text)
    (b.code.drop (i + 1))
  have whole : b.code.take (i + 1) ++ b.code.drop (i + 1) = b.code := List.take_append_drop ..
  have around := (rereads.reworked aside aside').around (b.code.take (i + 1)) []
  rw [List.append_nil, List.append_nil, whole] at around
  refine ⟨?_, copied⟩
  rw [isState]
  refine tracks.setCode here around ?_ (fun nowhere => ⟨nowhere, rfl, fun last => ?_⟩) ?_
  · intro P rereadable all q member
    rcases List.mem_append.1 member with front | back
    · exact tracks.kept rereadable all here q (List.mem_of_mem_take front)
    · rcases rereads.of_mem back with old | ⟨q, old, rfl⟩
      · exact tracks.kept rereadable all here q (List.mem_of_mem_drop old)
      · exact rereadable _ _ (tracks.kept rereadable all here q (List.mem_of_mem_drop old))
          (copied rereadable all) makes
  · exact live_behind isHere (Copy.of?_eq_some makes).1 aside aside'
      (tracks.kept (rereadable_separate _) separate here) last
  · intro unchanged
    simp only [Bool.or_eq_false_iff, decide_eq_false_iff_not, not_not] at unchanged
    refine ⟨unchanged.1, ?_⟩
    rw [rereads.eq_of_count unchanged.2, whole]

theorem propagate (tracks : Tracks f g source st) (separate : g.IsSeparate)
    (reserves : ∀ r ∈ Reg.alwaysReserved, r ∈ f.reserved) (i : Nat) :
    Tracks f g source (Propagation.propagate annotated f source st i) := by
  rw [propagate_eq]
  cases departs : depart? annotated f source st i with
  | none => exact tracks
  | some d =>
    obtain ⟨spreads, copied⟩ := tracks.depart separate reserves departs
    obtain ⟨-, -, -, makes, -⟩ := depart?_eq_some departs
    exact spreads.enterAll reserves makes copied d.onward

/-- What propagating all copies of a block does to a graph. -/
theorem run (annotated : Bool) (separate : g.IsSeparate)
    (reserves : ∀ r ∈ Reg.alwaysReserved, r ∈ f.reserved) (source : Nat) :
    Tracks f g source (Propagation.run annotated f g source) := by
  unfold Propagation.run
  split
  · exact .initial
  · next b _ =>
    have positions : ∀ (is : List Nat) (st : State), Tracks f g source st →
        Tracks f g source (is.foldl (Propagation.propagate annotated f source) st) := by
      intro is
      induction is with
      | nil => exact fun st tracks => tracks
      | cons i is ih => exact fun st tracks => ih _ (tracks.propagate separate reserves i)
    exact positions _ _ .initial

/-- If the machine runs the graph, the graph is recoded. -/
theorem recoded (tracks : Tracks f g source st)
    (reserves : ∀ r ∈ Reg.alwaysReserved, r ∈ f.reserved) (runs : g.Runs) : g.Recoded st.graph :=
  ⟨tracks.shape, tracks.reworked, tracks.kept (rereadable_runs reserves) runs⟩

end Tracks

end Propagation

end MipsFlow
