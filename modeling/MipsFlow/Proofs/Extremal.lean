import MipsFlow.Proofs.Solver

/-!
# The solution is extremal

The equations of a problem may have many solutions. The solver finds the least one if facts meet by
union, and the greatest one among all facts there are if they meet by intersection, in whatever
order the blocks are queued: `solve_extremal`.

Both come from one property of a single fact. A fact that is not assumed at first comes to a block
only where every set of places that is closed under the equations has it (`Run.least`), and one that
is assumed goes only where no set of places that the equations support has it (`Run.greatest`).
These also hold for facts outside of all facts there are, which is why the order of the queue never
matters.
-/

namespace MipsFlow

variable {α : Type}

/-- What flows into and out of every block. -/
structure Flow (α : Type) where
  into : Nat → Set α
  out : Nat → Set α

namespace Flow

/-- At every block of the graph the first flow has nothing that the second has not. -/
def Below (g : Graph) (f f' : Flow α) : Prop :=
  ∀ id < g.size, f.into id ⊆ f'.into id ∧ f.out id ⊆ f'.out id

/-- At every block of the graph the flow has facts of the set only. -/
def Inside (g : Graph) (f : Flow α) (s : FactSet α) : Prop :=
  ∀ id < g.size, (∀ a ∈ f.into id, a ∈ s) ∧ ∀ a ∈ f.out id, a ∈ s

end Flow

/-- The facts of a solution in the direction in which they flow. -/
def Solution.flow (s : Solution α) : Direction → Flow α
  | .forward => ⟨fun id => {a | a ∈ s.entryOf id}, fun id => {a | a ∈ s.exitOf id}⟩
  | .backward => ⟨fun id => {a | a ∈ s.exitOf id}, fun id => {a | a ∈ s.entryOf id}⟩

namespace Problem

/-- The facts of the work in progress. -/
def Progress.flow (w : Progress α) : Flow α :=
  ⟨fun id => {a | a ∈ factsAt w.into id}, fun id => {a | a ∈ factsAt w.out id}⟩

/-- What a block makes of the facts that flow into it: those it makes true, and those that it does
not destroy. -/
def passed (p : Problem α) (id : Nat) (into : Set α) : Set α :=
  {a | a ∈ factsAt p.gen id} ∪ (into \ {a | a ∈ factsAt p.kill id})

/-- The flow satisfies the equations of the problem at every block. -/
def Solves (p : Problem α) (g : Graph) (f : Flow α) : Prop :=
  ∀ id b, g.block? id = some b → f.into id = p.met b f.out ∧ f.out id = p.passed id (f.into id)

/-- If facts meet by intersection, everything that the blocks and the boundary bring in is among
all facts there are. -/
def Covers (p : Problem α) : Prop :=
  p.meet = .intersect → (∀ id a, a ∈ factsAt p.gen id → a ∈ p.everything.getD .empty) ∧
    ∀ a ∈ p.boundary, a ∈ p.everything.getD .empty

variable {p : Problem α} {g : Graph} {id : Nat} {b : Block} {a : α}

theorem passed_mono {s t : Set α} (grows : a ∈ s → a ∈ t) (member : a ∈ p.passed id s) :
    a ∈ p.passed id t :=
  member.imp_right (And.imp_left grows)

variable [DecidableEq α]

theorem mem_transfer_inflow (regular : g.Regular) (here : g.block? id = some b)
    {out : List (FactSet α)} :
    a ∈ p.transfer b (p.inflow out b) ↔
      a ∈ p.passed id (p.met b fun other => {x | x ∈ factsAt out other}) := by
  rw [mem_transfer, mem_inflow, regular.place here, or_comm]
  rfl

/-! ## One fact along a run -/

/-- What holds at first and is kept by every step holds along every run. -/
theorem Run.preserves (regular : g.Regular) {P : Progress α → Prop} {w w' : Progress α}
    (inv : Invariant p g w) (run : Run p g w w')
    (kept : ∀ {v v'}, Invariant p g v → Step p g v v' → P v → P v') (holds : P w) : P w' := by
  induction run with
  | refl => exact holds
  | tail before step ih => exact kept (inv.run regular before).1 step ih

/-- A step changes what flows out of one block only, to what that block makes of what meets
there. -/
theorem Step.out_cases (regular : g.Regular) {w w' : Progress α} (step : Step p g w w')
    (inv : Invariant p g w) (id : Nat) :
    factsAt w'.out id = factsAt w.out id ∨ ∃ b, g.block? id = some b ∧
      ∀ a, a ∈ factsAt w'.out id ↔ a ∈ p.passed id (p.met b w.flow.out) := by
  cases step with
  | same => exact Or.inl rfl
  | @changed here b queue queue' queued isBlock changed nodup members =>
    have inside := Graph.lt_size_of_block? isBlock
    rw [factsAt_set w.out (inv.outLength.symm ▸ inside)]
    split
    · next isHere =>
      subst isHere
      exact Or.inr ⟨b, isBlock, fun a => mem_transfer_inflow regular isBlock⟩
    · exact Or.inl rfl

/-- A fact that is not assumed at first comes only to blocks of every set of places that is closed
under the equations. -/
theorem Run.least (regular : g.Regular) {queue : List Nat} (order : queue.Perm (List.range g.size))
    {w : Progress α} (run : Run p g (p.startWith g queue) w) (unassumed : a ∉ p.start)
    (out : Nat → Set α)
    (closed : ∀ id b, g.block? id = some b → a ∈ p.passed id (p.met b out) → a ∈ out id)
    (id : Nat) (inside : id < g.size) (member : a ∈ factsAt w.out id) : a ∈ out id := by
  have inv : Invariant p g (p.startWith g queue) := .initial order
  refine run.preserves (P := fun w => ∀ id < g.size, a ∈ factsAt w.out id → a ∈ out id) regular inv
    ?_ ?_ id inside member
  · intro v v' inv step below id inside member
    rcases step.out_cases regular inv id with unchanged | ⟨b, here, passes⟩
    · exact below id inside (unchanged ▸ member)
    · refine closed id b here (passed_mono (met_mono ?_) ((passes a).1 member))
      exact fun source isSource => below source (lt_size_of_mem_sources regular here isSource)
  · intro id inside member
    exact absurd (factsAt_startWith inside ▸ member) unassumed

/-- A fact that is assumed at first stays at the blocks of every set of places that the equations
support. -/
theorem Run.greatest (regular : g.Regular) {queue : List Nat}
    (order : queue.Perm (List.range g.size)) {w : Progress α}
    (run : Run p g (p.startWith g queue) w) (assumed : a ∈ p.start) (out : Nat → Set α)
    (supported : ∀ id b, g.block? id = some b → a ∈ out id → a ∈ p.passed id (p.met b out))
    (id : Nat) (inside : id < g.size) (member : a ∈ out id) : a ∈ factsAt w.out id := by
  have inv : Invariant p g (p.startWith g queue) := .initial order
  refine run.preserves (P := fun w => ∀ id < g.size, a ∈ out id → a ∈ factsAt w.out id) regular inv
    ?_ ?_ id inside member
  · intro v v' inv step above id inside member
    rcases step.out_cases regular inv id with unchanged | ⟨b, here, passes⟩
    · exact unchanged ▸ above id inside member
    · refine (passes a).2 (passed_mono (met_mono ?_) (supported id b here member))
      exact fun source isSource => above source (lt_size_of_mem_sources regular here isSource)
  · intro id inside _
    exact (factsAt_startWith inside).symm ▸ assumed

/-! ## Complete runs -/

/-- The state is reached from one where nothing has been computed and all blocks are queued, in any
order, and nothing is left to do. -/
structure Completes (p : Problem α) (g : Graph) (w : Progress α) : Prop where
  run : ∃ queue : List Nat, queue.Perm (List.range g.size) ∧ Run p g (p.startWith g queue) w
  done : w.queue = []

theorem solution_completes (regular : g.Regular) :
    p.Completes g (p.settle g (p.fuel g) (p.initial g)) :=
  ⟨⟨p.order g, p.order_perm g, (solution_run regular).1⟩, (solution_run regular).2⟩

theorem Completes.solves (regular : g.Regular) {w : Progress α} (completes : p.Completes g w) :
    p.Solves g w.flow := by
  obtain ⟨⟨queue, order, run⟩, done⟩ := completes
  obtain ⟨inv, -⟩ := Invariant.run regular (Invariant.initial order) run
  intro id b here
  obtain ⟨flowsIn, flowsOut⟩ := inv.settled id b here (by simp [done])
  have into : w.flow.into id = p.met b w.flow.out :=
    Set.ext fun a => (flowsIn a).trans mem_inflow
  refine ⟨into, Set.ext fun a => ?_⟩
  rw [into]
  exact (flowsOut a).trans (mem_transfer_inflow regular here)

omit [DecidableEq α] in
/-- What flows in is compared like what flows out. -/
theorem Solves.into_mono (regular : g.Regular) {f f' : Flow α} (solves : p.Solves g f)
    (solves' : p.Solves g f') (grows : ∀ id < g.size, a ∈ f.out id → a ∈ f'.out id)
    (inside : id < g.size) (member : a ∈ f.into id) : a ∈ f'.into id := by
  obtain ⟨b, here⟩ := Graph.block?_of_lt_size inside
  rw [(solves id b here).1] at member
  rw [(solves' id b here).1]
  exact met_mono (fun id source => grows id (lt_size_of_mem_sources regular here source)) member

/-- Facts that are not assumed at first are those of every solution. -/
theorem Completes.least (regular : g.Regular) {w : Progress α} (completes : p.Completes g w)
    {f : Flow α} (solves : p.Solves g f) (unassumed : a ∉ p.start) (inside : id < g.size) :
    (a ∈ w.flow.into id → a ∈ f.into id) ∧ (a ∈ w.flow.out id → a ∈ f.out id) := by
  obtain ⟨queue, order, run⟩ := completes.run
  have below : ∀ id < g.size, a ∈ w.flow.out id → a ∈ f.out id := by
    refine run.least regular order unassumed f.out fun id b here passes => ?_
    rw [(solves id b here).2, (solves id b here).1]
    exact passes
  exact ⟨(completes.solves regular).into_mono regular solves below inside, below id inside⟩

/-- Facts that are assumed at first stay where a solution has them. -/
theorem Completes.greatest (regular : g.Regular) {w : Progress α} (completes : p.Completes g w)
    {f : Flow α} (solves : p.Solves g f) (assumed : a ∈ p.start) (inside : id < g.size) :
    (a ∈ f.into id → a ∈ w.flow.into id) ∧ (a ∈ f.out id → a ∈ w.flow.out id) := by
  obtain ⟨queue, order, run⟩ := completes.run
  have above : ∀ id < g.size, a ∈ f.out id → a ∈ w.flow.out id := by
    refine run.greatest regular order assumed f.out fun id b here member => ?_
    rwa [(solves id b here).2, (solves id b here).1] at member
  exact ⟨solves.into_mono regular (completes.solves regular) above inside, above id inside⟩

/-- All complete runs end with the same facts. -/
theorem Completes.agree (regular : g.Regular) {w w' : Progress α} (completes : p.Completes g w)
    (completes' : p.Completes g w') (inside : id < g.size) :
    w.flow.into id = w'.flow.into id ∧ w.flow.out id = w'.flow.out id := by
  have solves := completes.solves regular
  have solves' := completes'.solves regular
  have same : ∀ a, (a ∈ w.flow.into id ↔ a ∈ w'.flow.into id) ∧
      (a ∈ w.flow.out id ↔ a ∈ w'.flow.out id) := by
    intro a
    by_cases assumed : a ∈ p.start
    · obtain ⟨into, out⟩ := completes.greatest regular solves' assumed inside
      obtain ⟨into', out'⟩ := completes'.greatest regular solves assumed inside
      exact ⟨⟨into', into⟩, ⟨out', out⟩⟩
    · obtain ⟨into, out⟩ := completes.least regular solves' assumed inside
      obtain ⟨into', out'⟩ := completes'.least regular solves assumed inside
      exact ⟨⟨into, into'⟩, ⟨out, out'⟩⟩
  exact ⟨Set.ext fun a => (same a).1, Set.ext fun a => (same a).2⟩

/-- If everything that is brought in is among all facts there are, so is everything that flows. -/
theorem Completes.inside (regular : g.Regular) {w : Progress α} (completes : p.Completes g w)
    (inter : p.meet = .intersect) (covers : p.Covers) :
    w.flow.Inside g (p.everything.getD .empty) := by
  obtain ⟨queue, order, run⟩ := completes.run
  have start : p.start = p.everything.getD .empty := by simp [Problem.start, inter]
  obtain ⟨gens, boundary⟩ := covers inter
  -- what meets at a block comes from the boundary or out of another block
  have meets : ∀ {id b}, g.block? id = some b → ∀ {out : Nat → Set α},
      (∀ id < g.size, ∀ a ∈ out id, a ∈ p.everything.getD .empty) →
      ∀ a ∈ p.met b out, a ∈ p.everything.getD .empty := by
    intro id b here out within a member
    simp only [met, inter, Set.mem_ofPred_eq] at member
    rcases p.atBoundary_or_sources b with atBoundary | sources
    · exact boundary a (member.1 atBoundary)
    · obtain ⟨source, isSource⟩ := List.exists_mem_of_ne_nil _ sources
      exact within source (lt_size_of_mem_sources regular here isSource) a
        (member.2 source isSource)
  have out : ∀ id < g.size, ∀ a ∈ w.flow.out id, a ∈ p.everything.getD .empty := by
    intro id inside a member
    by_cases assumed : a ∈ p.start
    · exact start ▸ assumed
    · refine run.least regular order assumed (fun _ => {x | x ∈ p.everything.getD .empty}) ?_ id
        inside member
      rintro id b here (made | ⟨met, -⟩)
      · exact gens id a made
      · exact meets here (fun _ _ _ known => known) a met
  intro id inside
  obtain ⟨b, here⟩ := Graph.block?_of_lt_size inside
  refine ⟨fun a member => ?_, out id inside⟩
  rw [(completes.solves regular id b here).1] at member
  exact meets here out a member

/-! ## The solver -/

theorem flow_solution (p : Problem α) (g : Graph) :
    (p.solution g).flow p.direction = (p.settle g (p.fuel g) (p.initial g)).flow := by
  unfold solution
  cases p.direction <;> rfl

theorem solve_eq (gens : p.gen.length = g.size) (kills : p.kill.length = g.size)
    (known : p.meet = .intersect → p.everything.isSome = true) :
    p.solve g = .ok (p.solution g) := by
  have noFault : p.fault? g = none := by
    unfold fault?
    rw [if_neg (by simp [gens, kills]), if_neg]
    rintro ⟨inter, none⟩
    have := known inter
    cases everything : p.everything <;> simp [everything] at this none
  simp only [solve, noFault]

/-- For every problem that can be posed for a regular graph, the solver empties its queue and gives
a solution of the equations. If facts meet by union it is the least one; if they meet by
intersection, and everything that is brought in is among all facts there are, it is the greatest of
those inside. In whatever order the blocks are queued at first and whenever their facts change,
computing them comes to an end, and it ends with the same facts. -/
theorem solve_extremal (p : Problem α) (g : Graph) (regular : g.Regular)
    (gens : p.gen.length = g.size) (kills : p.kill.length = g.size)
    (known : p.meet = .intersect → p.everything.isSome = true) :
    (p.settle g (p.fuel g) (p.initial g)).queue = [] ∧
    ∃ s, p.solve g = .ok s ∧ p.Solves g (s.flow p.direction) ∧
      (p.meet = .union → ∀ f, p.Solves g f → (s.flow p.direction).Below g f) ∧
      (p.meet = .intersect → p.Covers →
        (s.flow p.direction).Inside g (p.everything.getD .empty) ∧
        ∀ f, p.Solves g f → f.Inside g (p.everything.getD .empty) →
          f.Below g (s.flow p.direction)) ∧
      ∀ queue : List Nat, queue.Perm (List.range g.size) → ∀ w, Run p g (p.startWith g queue) w →
        w.steps ≤ p.fuel g ∧ (w.queue ≠ [] → ∃ w', Step p g w w') ∧
        (w.queue = [] → ∀ id < g.size, w.flow.into id = (s.flow p.direction).into id ∧
          w.flow.out id = (s.flow p.direction).out id) := by
  have completes := solution_completes (p := p) regular
  refine ⟨completes.done, p.solution g, solve_eq gens kills known, ?_⟩
  rw [flow_solution]
  refine ⟨completes.solves regular, fun union f solves id inside => ?_, fun inter covers => ?_, ?_⟩
  · have unassumed : ∀ a, a ∉ p.start := fun a => by simp [start, union]
    exact ⟨fun a => (completes.least regular solves (unassumed a) inside).1,
      fun a => (completes.least regular solves (unassumed a) inside).2⟩
  · refine ⟨completes.inside regular inter covers, fun f solves within id inside => ?_⟩
    have assumed : ∀ a, a ∈ p.everything.getD .empty → a ∈ p.start := fun a member => by
      simpa [start, inter] using member
    obtain ⟨into, out⟩ := within id inside
    exact ⟨fun a member =>
        (completes.greatest regular solves (assumed a (into a member)) inside).1 member,
      fun a member =>
        (completes.greatest regular solves (assumed a (out a member)) inside).2 member⟩
  · intro queue order w run
    obtain ⟨inv, bound⟩ := Invariant.run regular (Invariant.initial order) run
    have work := workLeft_initial (p := p) order
    have first : (p.startWith g queue).steps = 0 := rfl
    exact ⟨by omega, fun more => ⟨_, step_advance inv more⟩,
      fun done id inside => Completes.agree regular ⟨⟨queue, order, run⟩, done⟩ completes inside⟩

/-- Around a loop of two blocks, of which the first makes one of two facts. -/
theorem solve_extremal_loop :
    let g : Graph := ⟨[{ id := 0, code := [], succ := [1], pred := [1] },
      { id := 1, code := [], succ := [0], pred := [0] }]⟩
    let p : Problem Nat :=
      { name := "loop", direction := .backward, meet := .intersect, gen := [⟨[7]⟩, ⟨[]⟩]
        kill := [⟨[8]⟩, ⟨[]⟩], boundary := ⟨[]⟩, everything := some ⟨[7, 8]⟩ }
    g.Regular ∧ p.Covers ∧ ∃ s, p.solve g = .ok s ∧ p.Solves g (s.flow .backward) ∧
      (s.flow .backward).Inside g ⟨[7, 8]⟩ ∧
      ∀ f, p.Solves g f → f.Inside g ⟨[7, 8]⟩ → f.Below g (s.flow .backward) := by
  intro g p
  have regular : g.Regular := by
    constructor
    all_goals intro id
    · intro b here
      rcases id with _ | _ | id <;> simp [g, Graph.block?] at here <;> simp [← here]
    · intro next b here edge
      rcases id with _ | _ | id <;> simp [g, Graph.block?] at here <;> subst here <;>
        simp at edge <;> subst edge <;> simp [g, Graph.block?]
    · intro last b here edge
      rcases id with _ | _ | id <;> simp [g, Graph.block?] at here <;> subst here <;>
        simp at edge <;> subst edge <;> simp [g, Graph.block?]
  have covers : p.Covers := by
    intro _
    refine ⟨fun id a member => ?_, fun a member => by simp [p, FactSet.mem_def] at member⟩
    rcases id with _ | _ | id <;> simp [p, factsAt, FactSet.mem_def] at member ⊢
    · exact Or.inl member
    · simp [FactSet.empty] at member
  obtain ⟨-, s, solved, solves, -, greatest, -⟩ :=
    solve_extremal p g regular rfl rfl fun _ => rfl
  obtain ⟨inside, above⟩ := greatest rfl covers
  exact ⟨regular, covers, s, solved, solves, inside, above⟩

end Problem

end MipsFlow
