import MipsFlow.Proofs.Preservation
import MipsFlow.Proofs.PassDescent

/-!
# The optimized program descends from the program

What the passes make of blocks and jumps puts together to the whole run: `run_descends`. The places
of blocks go along in the induction, as a pass stores its result at the place of its block.

A cycle is settling the blocks of a program with simplified jumps (`cycle_eq`), and a run is cycles
and what comes behind them (`run_eq`). So whatever is kept by each cycle, many cycles keep
(`cycles_related`).
-/

namespace MipsFlow

/-- The second workspace has come from the first by editing its program. -/
structure Workspace.Progresses (o : Options) (w w' : Workspace) : Prop where
  descends : Descends o.annotated w.nextId w'.nextId w.graph.flatten w'.graph.flatten
  placed : Graph.Placed w.graph.blocks → Graph.Placed w'.graph.blocks

namespace Graph

variable {g : Graph} {id : Nat} {code : List Instr}

theorem Placed.setCode (placed : Placed g.blocks) : Placed (g.setCode id code).blocks := by
  intro place b there
  have isBlock : (g.setCode id code).block? place = some b := there
  rw [block?_setCode] at isBlock
  obtain ⟨b', here, rfl⟩ := Option.map_eq_some_iff.1 isBlock
  split <;> exact placed place b' here

end Graph

namespace Propagation

variable {annotated : Bool} {f : Facts} {s : State} {c : Copy} {p : Instr}

theorem enter_placed (placed : Graph.Placed s.graph.blocks) (source id : Nat) :
    Graph.Placed (enter annotated f source p c s id).graph.blocks := by
  rcases enter_cases annotated f source p c s id with same | ⟨block, note, -, entered⟩
  · rwa [same]
  · rw [entered]
    exact placed.setCode

theorem run_placed {g : Graph} (placed : Graph.Placed g.blocks) (id : Nat) :
    Graph.Placed (run annotated f g id).graph.blocks := by
  unfold run
  split
  · exact placed
  · next block _ =>
    refine List.foldlRecOn (motive := fun s : State => Graph.Placed s.graph.blocks)
      (List.range block.code.length) _ placed fun s propagated i _ => ?_
    rw [propagate_eq]
    cases departs : depart? annotated f id s i with
    | none => exact propagated
    | some d =>
      obtain ⟨_, -, -, -, isState, -⟩ := depart?_eq_some departs
      refine List.foldlRecOn (motive := fun s : State => Graph.Placed s.graph.blocks) d.onward _ ?_
        fun _ entered next _ => enter_placed entered id next
      rw [isState]
      exact propagated.setCode

end Propagation

namespace Workspace

variable {o : Options} {w w' : Workspace} {b : Block} {id : Nat} {pass : Pass} {changed : Bool}

theorem Progresses.refl (w : Workspace) : w.Progresses o w := ⟨.refl _ _, id⟩

theorem Progresses.trans {w'' : Workspace} (first : w.Progresses o w')
    (second : w'.Progresses o w'') : w.Progresses o w'' :=
  ⟨first.descends.trans second.descends, second.placed ∘ first.placed⟩

theorem Progresses.store {block : BlockCode} (here : w.graph.block? b.id = some b)
    (descends : Descends o.annotated w.nextId block.nextId b.code block.code) :
    w.Progresses o (w.store b.id block) := by
  obtain ⟨before, after, isWhole, exchanged⟩ := Graph.flatten_split here
  refine ⟨?_, Graph.Placed.setCode⟩
  unfold Workspace.store
  rw [exchanged, isWhole]
  exact descends.around before after

/-- Every pass edits the program. -/
theorem apply_progresses (placed : Graph.Placed w.graph.blocks) (here : w.graph.block? id = some b)
    (applied : pass.apply o w b = (w', .ok changed)) : w.Progresses o w' := by
  have place : b.id = id := placed id b here
  rw [← place] at here
  let v := w.facts.view o.annotated b
  let block : BlockCode := ⟨b.code, w.nextId⟩
  unfold Pass.apply at applied
  cases pass with
  | redundancy =>
    cases applied
    exact .store here (Redundancy.run_descends v block)
  | sharing =>
    cases applied
    exact .store here (Sharing.run_descends v block)
  | folding =>
    obtain rfl := (Prod.mk.inj applied).1
    exact .store here (Folding.run_descends v block)
  | propagation =>
    cases applied
    exact ⟨Propagation.run_descends o.annotated w.facts w.graph b.id w.nextId, fun placed =>
      Propagation.run_placed placed b.id⟩
  | deadCode =>
    cases applied
    exact .store here (DeadCode.run_descends v w.nextId b.code)

end Workspace

namespace Optimizer

variable {o : Options} {limit : Nat} {s s' : State} {changed : Bool}

/-! ## What a run is made of -/

/-- The workspace of a cycle. The jumps are simplified, and the program is cut into blocks. -/
def State.workspace (o : Options) (s : State) : Workspace :=
  let jumps := Jumps.run o.annotated s.program.nextId s.program.code
  Workspace.create o (Graph.build jumps.code) jumps.nextId
    { s.tally with cycles := s.tally.cycles + 1 }

/-- The end of a cycle, and whether it has changed anything. -/
def State.next (o : Options) (limit : Nat) (s : State) (outcome : BlockOutcome) : State × Bool :=
  let jumps := Jumps.run o.annotated s.program.nextId s.program.code
  let program : Program := ⟨outcome.workspace.graph.flatten, outcome.workspace.nextId⟩
  let cycles := s.summary.cycles + 1
  let afterGlobal := if cycles = 1 then codeSize jumps.code else s.summary.afterGlobal
  ({ program
     summary := Summary.record { s.summary with cycles, afterGlobal } s.program.size program.size
     tally := outcome.workspace.tally
     notConverging := if outcome.stable then none else some limit },
    jumps.changed || outcome.changed)

/-- A cycle simplifies the jumps and settles the blocks. -/
theorem cycle_eq (o : Options) (limit : Nat) (s : State) : cycle o limit s =
    (settleBlocks o limit (List.range (s.workspace o).graph.size) (s.workspace o)).map
      (s.next o limit) := by
  have unfolded : cycle o limit s =
      (settleBlocks o limit (List.range (s.workspace o).graph.size) (s.workspace o)).bind
        fun outcome => .ok (s.next o limit outcome) := rfl
  rw [unfolded]
  cases settleBlocks o limit (List.range (s.workspace o).graph.size) (s.workspace o) <;> rfl

/-- What has happened in a cycle that has come to its end. -/
theorem cycle_eq_ok (cycled : cycle o limit s = .ok (s', changed)) :
    ∃ outcome, settleBlocks o limit (List.range (s.workspace o).graph.size) (s.workspace o) =
      .ok outcome ∧ s.next o limit outcome = (s', changed) := by
  rw [cycle_eq] at cycled
  cases settles : settleBlocks o limit (List.range (s.workspace o).graph.size) (s.workspace o) with
  | error fault =>
    rw [settles] at cycled
    cases cycled
  | ok outcome =>
    rw [settles] at cycled
    exact ⟨outcome, rfl, Except.ok.inj cycled⟩

/-- The cycles go on if the first one changes something and converges. -/
theorem cycles_succ_eq_ok {left : Nat} (cycled : cycles o limit (left + 1) s = .ok s') :
    ∃ s₁ changed, cycle o limit s = .ok (s₁, changed) ∧
      (((changed && s₁.notConverging.isNone) = true ∧ cycles o limit left s₁ = .ok s') ∨
        ((changed && s₁.notConverging.isNone) = false ∧ s' = s₁)) := by
  simp only [cycles, bind, Except.bind, pure, Except.pure] at cycled
  split at cycled
  · cases cycled
  · next result first =>
    refine ⟨result.1, result.2, first, ?_⟩
    split at cycled
    · next goesOn => exact Or.inl ⟨goesOn, cycled⟩
    · next stops =>
      cases cycled
      exact Or.inr ⟨Bool.eq_false_iff.2 stops, rfl⟩

/-- What every cycle keeps, any number of cycles keeps. -/
theorem cycles_related {R : Program → Program → Prop} (refl : ∀ p, R p p)
    (trans : ∀ {p q r}, R p q → R q r → R p r)
    (each : ∀ {s s' changed}, cycle o limit s = .ok (s', changed) → R s.program s'.program)
    {left : Nat} (cycled : cycles o limit left s = .ok s') : R s.program s'.program := by
  induction left generalizing s with
  | zero =>
    cases cycled
    exact refl _
  | succ left ih =>
    obtain ⟨s₁, changed, first, ⟨-, cycled⟩ | ⟨-, rfl⟩⟩ := cycles_succ_eq_ok cycled
    · exact trans (each first) (ih cycled)
    · exact each first

/-- The state before the first cycle. -/
def State.start (program : Program) : State :=
  { program, summary := { initial := program.size, peak := program.size }, tally := { units := 1 } }

/-- What is left to do behind the last cycle. -/
def State.finish (o : Options) (s : State) : State :=
  let s := if s.notConverging.isNone && o.summarize then summarize o s else s
  { s with summary.final := s.program.size }

@[simp] theorem State.notConverging_finish (o : Options) (s : State) :
    (s.finish o).notConverging = s.notConverging := by
  unfold finish
  split <;> rfl

/-- A run is made of cycles. -/
theorem run_eq (o : Options) (program : Program) : run o program =
    (cycles o (o.cycleLimit program.size) (o.cycleLimit program.size) (.start program)).map
      (State.finish o) := by
  have unfolded : run o program = (cycles o (o.cycleLimit program.size) (o.cycleLimit program.size)
    (.start program)).bind fun s => .ok (s.finish o) := rfl
  rw [unfolded]
  cases cycles o (o.cycleLimit program.size) (o.cycleLimit program.size) (.start program) <;> rfl

/-- What has happened in a run that has come to its end. -/
theorem run_eq_ok {program : Program} {final : State} (ran : run o program = .ok final) :
    ∃ s, cycles o (o.cycleLimit program.size) (o.cycleLimit program.size) (.start program) = .ok s ∧
      s.finish o = final := by
  rw [run_eq] at ran
  cases cycled : cycles o (o.cycleLimit program.size) (o.cycleLimit program.size)
      (.start program) with
  | error fault =>
    rw [cycled] at ran
    cases ran
  | ok s =>
    rw [cycled] at ran
    exact ⟨s, rfl, Except.ok.inj ran⟩

/-! ## The moments of a run -/

/-- The moments of a cycle. -/
def cycleMoments (o : Options) (limit : Nat) (s : State) : List Moment :=
  graphMoments o limit (List.range (s.workspace o).graph.size) (s.workspace o)

/-- The moments of some cycles. -/
def cyclesMoments (o : Options) (limit : Nat) : Nat → State → List Moment
  | 0, _ => []
  | left + 1, s =>
    cycleMoments o limit s ++ match cycle o limit s with
      | .error _ => []
      | .ok (s, changed) =>
        if changed && s.notConverging.isNone then cyclesMoments o limit left s else []

/-- The moments of a run. -/
def moments (o : Options) (program : Program) : List Moment :=
  cyclesMoments o (o.cycleLimit program.size) (o.cycleLimit program.size) (.start program)

theorem cyclesMoments_succ {left : Nat} (cycled : cycle o limit s = .ok (s', changed)) :
    cyclesMoments o limit (left + 1) s = cycleMoments o limit s ++
      if changed && s'.notConverging.isNone then cyclesMoments o limit left s' else [] := by
  rw [cyclesMoments, cycled]

/-- What holds of the moments of every cycle holds of all moments of a run. -/
theorem forall_moments {K : Moment → Prop} {program : Program}
    (each : ∀ limit s, ∀ m ∈ cycleMoments o limit s, K m) : ∀ m ∈ moments o program, K m := by
  unfold moments
  generalize o.cycleLimit program.size = limit
  suffices all : ∀ left s, ∀ m ∈ cyclesMoments o limit left s, K m from all limit _
  intro left
  induction left with
  | zero => exact fun s m none => absurd none List.not_mem_nil
  | succ left ih =>
    intro s
    refine List.forall_mem_append.2 ⟨each limit s, ?_⟩
    split
    · exact fun m none => absurd none List.not_mem_nil
    · split
      · exact ih _
      · exact fun m none => absurd none List.not_mem_nil

section Between

variable {K : Moment → Prop} {R : List Instr → List Instr → Prop} {program : Program}
variable (refl : ∀ a, R a a) (trans : ∀ {a b c}, R a b → R b c → R a c)
variable (jumps : ∀ s : State,
  R s.program.code (Jumps.run o.annotated s.program.nextId s.program.code).code)
variable (applies : ∀ {id w w' b pass changed}, K ⟨id, pass, w⟩ → w.graph.block? id = some b →
  Pass.apply o pass w b = (w', .ok changed) → R w.graph.flatten w'.graph.flatten)
variable (bare : ∀ {a b : List Instr}, b.map Instr.bare = a.map Instr.bare → R a b)

include refl trans jumps applies

/-- What relates the code of a program to what a pass makes of it, and does not look at the rest of
the workspace, relates the code to that behind a cycle. -/
theorem cycle_related (kinds : ∀ m ∈ cycleMoments o limit s, K m)
    (cycled : cycle o limit s = .ok (s', changed)) : R s.program.code s'.program.code := by
  obtain ⟨outcome, settles, ends⟩ := cycle_eq_ok cycled
  cases ends
  have settled := settleBlocks_related
    (R := fun w w' => R w.graph.flatten w'.graph.flatten) (fun w => refl w.graph.flatten) trans
    (fun related graph _ => graph ▸ related) applies kinds settles
  rw [show (s.workspace o).graph.flatten = _ from Graph.flatten_build _] at settled
  exact trans (jumps s) settled

theorem cycleMoments_related (kinds : ∀ m ∈ cycleMoments o limit s, K m)
    (cycled : cycle o limit s = .ok (s', changed)) : ∀ m ∈ cycleMoments o limit s,
      m.Between o (R s.program.code ·.graph.flatten) (R ·.graph.flatten s'.program.code) := by
  obtain ⟨outcome, settles, ends⟩ := cycle_eq_ok cycled
  cases ends
  intro m member
  have between := graphMoments_related
    (R := fun w w' => R w.graph.flatten w'.graph.flatten) (fun w => refl w.graph.flatten) trans
    (fun related graph _ => graph ▸ related) applies kinds settles m member
  rw [show (s.workspace o).graph.flatten = _ from Graph.flatten_build _] at between
  exact between.imp (fun _ => trans (jumps s)) fun _ same => same

theorem cyclesMoments_related {left : Nat} (kinds : ∀ m ∈ cyclesMoments o limit left s, K m)
    (cycled : cycles o limit left s = .ok s') :
    R s.program.code s'.program.code ∧ ∀ m ∈ cyclesMoments o limit left s,
      m.Between o (R s.program.code ·.graph.flatten) (R ·.graph.flatten s'.program.code) := by
  induction left generalizing s with
  | zero =>
    cases cycled
    exact ⟨refl _, fun m none => absurd none List.not_mem_nil⟩
  | succ left ih =>
    obtain ⟨s₁, changed, first, ends⟩ := cycles_succ_eq_ok cycled
    rw [cyclesMoments_succ first] at kinds ⊢
    obtain ⟨kinds, later⟩ := List.forall_mem_append.1 kinds
    have related := cycle_related refl trans jumps applies kinds first
    have between := cycleMoments_related refl trans jumps applies kinds first
    rcases ends with ⟨goesOn, cycled⟩ | ⟨stops, rfl⟩
    · rw [if_pos goesOn] at later ⊢
      obtain ⟨onward, betweenLater⟩ := ih later cycled
      refine ⟨trans related onward,
        List.forall_mem_append.2 ⟨fun m member => ?_, fun m member => ?_⟩⟩
      · exact (between m member).imp (fun _ same => same) fun _ before => trans before onward
      · exact (betweenLater m member).imp (fun _ => trans related) fun _ same => same
    · rw [stops]
      exact ⟨related, List.forall_mem_append.2
        ⟨between, fun m none => absurd none List.not_mem_nil⟩⟩

include bare

/-- All moments of a run lie between the program and the result. -/
theorem moments_related {final : State} (kinds : ∀ m ∈ moments o program, K m)
    (ran : run o program = .ok final) :
    R program.code final.program.code ∧ ∀ m ∈ moments o program,
      m.Between o (R program.code ·.graph.flatten) (R ·.graph.flatten final.program.code) := by
  obtain ⟨s, cycled, rfl⟩ := run_eq_ok ran
  obtain ⟨related, between⟩ :=
    cyclesMoments_related refl trans jumps applies kinds cycled
  have finished : R s.program.code (s.finish o).program.code := by
    unfold State.finish
    split
    · exact bare (bare_summarize o s)
    · exact refl _
  exact ⟨trans related finished, fun m member =>
    (between m member).imp (fun _ same => same) fun _ before => trans before finished⟩

end Between

/-! ## Descent -/

theorem settleBlocks_progresses {w : Workspace} (placed : Graph.Placed w.graph.blocks)
    {ids : List Nat} {outcome : BlockOutcome}
    (settles : settleBlocks o limit ids w = .ok outcome) : w.Progresses o outcome.workspace := by
  refine settleBlocks_related
    (R := fun w w' => Graph.Placed w.graph.blocks → w.Progresses o w') (fun w _ => .refl w)
    (fun first second placed => (first placed).trans (second ((first placed).placed placed)))
    (fun related graph next placed => ?_)
    (K := fun _ => True)
    (fun _ here applied placed => Workspace.apply_progresses placed here applied)
    (fun _ _ => trivial) settles placed
  obtain ⟨descends, kept⟩ := related placed
  exact ⟨graph ▸ next ▸ descends, graph ▸ kept⟩

/-- One cycle. -/
theorem cycle_descends (cycled : cycle o limit s = .ok (s', changed)) :
    Descends o.annotated s.program.nextId s'.program.nextId s.program.code s'.program.code := by
  obtain ⟨outcome, settles, ends⟩ := cycle_eq_ok cycled
  cases ends
  let jumps := Jumps.run o.annotated s.program.nextId s.program.code
  have simplified : Descends o.annotated s.program.nextId jumps.nextId s.program.code
      jumps.code :=
    Jumps.runFrom_descends o.annotated s.program.nextId [] s.program.code fun _ => rfl
  have placed : Graph.Placed (Graph.build jumps.code).blocks := fun place b here =>
    (Graph.build_regular jumps.code).place here
  have settled := (settleBlocks_progresses placed settles).descends
  have flat : (Graph.build jumps.code).flatten = jumps.code := Graph.flatten_build jumps.code
  exact simplified.trans (flat ▸ settled)

theorem cycles_descends {left : Nat} (cycled : cycles o limit left s = .ok s') :
    Descends o.annotated s.program.nextId s'.program.nextId s.program.code s'.program.code :=
  cycles_related (R := fun p q => Descends o.annotated p.nextId q.nextId p.code q.code)
    (fun _ => .refl _ _) (fun first second => first.trans second) cycle_descends cycled

theorem summarize_descends (noted : o.annotated = true) (s : State) (n : Nat) :
    Descends o.annotated n n s.program.code (summarize o s).program.code :=
  .of_bare n (bare_summarize o s) noted

/-- The optimized program has come from the program by editing. -/
theorem run_descends {program : Program} {final : State} (ran : run o program = .ok final) :
    Descends o.annotated program.nextId final.program.nextId program.code final.program.code := by
  obtain ⟨s, cycled, rfl⟩ := run_eq_ok ran
  have descends := cycles_descends cycled
  unfold State.finish
  split
  · next summarized =>
    have noted : o.annotated = true := by
      have level := (Bool.and_eq_true_iff.1 summarized).2
      simp only [Options.summarize, Options.annotated, decide_eq_true_eq] at level ⊢
      omega
    exact descends.trans (summarize_descends noted s _)
  · exact descends

end Optimizer

end MipsFlow
