import MipsFlow.Proofs.Wiring

/-!
# Runs of a program and of its graph

An engine runs a flat program as the machine does, but what its commands mean is open, and some of
them may stop the program for a reason. It runs the program of a graph that is laid out like its
jumps block by block (`run_block`). So a run of the program has an outcome if and only if a run of
the graph comes to a block with that outcome: `outcome_of_run` and `outcome_of_visit`.

The machine is an engine that nothing stops, so it ends in the states in which a run of the graph
stops (`Stops`): `ends_iff_stops`.
-/

namespace MipsFlow

namespace Machine

/-! ## Engines -/

/-- A meaning of all commands, some of which stop the program for a reason. -/
structure Engine (E : Type) extends Interpretation Word Memory where
  stop? : Command → State → Option E

/-- The machine, which nothing stops. -/
def engine (places : String → Option Nat) : Engine Empty where
  toInterpretation := meaning places
  stop? _ _ := none

namespace Engine

variable {E : Type} (K : Engine E)

/-- Runs the instructions of a list, which is a part of `code` to its end, for at most so many
steps. Gives the state at a return or at the end, or why the program has stopped. -/
def run (code : List Instr) : Nat → List Instr → State → Option (Except E State)
  | 0, _, _ => none
  | _ + 1, [], s => some (.ok s)
  | fuel + 1, p :: rest, s =>
    match p.command? with
    | none => run code fuel rest s
    | some c =>
      if c.isReturn then some (.ok s)
      else
        match goesTo? c s with
        | some label => run code fuel (behind label code) s
        | none => (K.stop? c s).elim (run code fuel rest (K.exec c s)) (some ∘ .error)

/-- What stops straight-line code. -/
def halt? : List Instr → State → Option E
  | [], _ => none
  | p :: rest, s => (p.command?.bind (K.stop? · s)).or (halt? rest (K.execInstr p s))

/-- At jumps the engine does what the machine does, if labels are at the given places. -/
structure Steers (places : String → Option Nat) : Prop where
  decides : ∀ here c s, K.decide here c s = (meaning places).decide here c s
  still : ∀ {c : Command} (s : State), Understood c → c.isJump = true → K.exec c s = s
  goesOn : ∀ {c : Command} (s : State), Understood c → c.isJump = true → K.stop? c s = none

/-- The program, started in the state, comes to this. -/
def Results (code : List Instr) (s : State) (r : Except E State) : Prop :=
  ∃ fuel, K.run code fuel code s = some r

variable {K}

theorem halt?_append {a b : List Instr} {s : State} :
    K.halt? (a ++ b) s = (K.halt? a s).or (K.halt? b (K.execAll a s)) := by
  induction a generalizing s with
  | nil => rfl
  | cons p a ih =>
    rw [List.cons_append, halt?, halt?, ih, Option.or_assoc, Interpretation.execAll_cons]

end Engine

/-- If the instruction jumps, the machine runs it. -/
def Steered (p : Instr) : Prop := ∀ c, p.command? = some c → c.isJump = true → Understood c

theorem Runs.steered {p : Instr} (runs : Runs p) : Steered p := fun c command _ => runs c command

theorem steered_of_wired {g : Graph} {places : String → Option Nat} (wired : g.Wired places) :
    g.All Steered := fun here p member => (wired.runs here p member).steered

variable {places : String → Option Nat} {code a rest : List Instr} {c : Command} {s : State}
variable {p q : Instr} {fuel : Nat}

/-! ## One instruction -/

/-- What is no jump neither returns nor goes to a label. -/
theorem goesTo?_of_plain (stays : c.isJump = false) : c.isReturn = false ∧ goesTo? c s = none := by
  have other : ∀ {op : Opcode}, c.op? = some op → op.has .jump = false := by
    intro op isOp
    rwa [Command.isJump, Command.has_of_op? isOp] at stays
  refine ⟨?_, ?_⟩
  · rw [Bool.eq_false_iff]
    intro returns
    rw [Command.isJump_of_isReturn returns] at stays
    contradiction
  · unfold goesTo?
    split
    case h_1 isOp _ | h_2 isOp _ | h_3 isOp _ => exact absurd (other isOp) (by decide)
    case h_4 => rfl

/-- A jump changes nothing but where control goes. -/
theorem step_of_isJump (understood : Understood c) (jumps : c.isJump = true) : step c s = s := by
  have impossible : ¬ false = true := Bool.false_ne_true
  cases understood with
  | compute op d x y member => exact absurd ((defs_compute member).2.symm.trans jumps) impossible
  | branch op x y label isBranch => rcases isBranch with rfl | rfl <;> cases x <;> rfl
  | jump label => rfl
  | ret op isJump => rcases isJump with rfl | rfl <;> rfl
  | _ => exact absurd jumps impossible

/-- A jump that does not return goes to its target, or is a branch that is not taken. The graph
decides in the same way. -/
theorem goesTo?_cases (here : Nat) (understood : Understood c) (jumps : c.isJump = true)
    (stays : c.isReturn = false) :
    (∃ label, c.target? = some label ∧ goesTo? c s = some label ∧
        (meaning places).decide here c s = places label) ∨
      (c.op? = some .beq ∨ c.op? = some .bne) ∧ goesTo? c s = none ∧
        (meaning places).decide here c s = some (here + 1) := by
  have impossible : ¬ false = true := Bool.false_ne_true
  cases understood with
  | branch op x y label isBranch left right =>
    have first : ((meaning places).seenAt (some .useBoth) s 0 x).word = value s x :=
      word_seenAt left rfl
    have second : ((meaning places).seenAt (some .useBoth) s 1 y).word = value s y :=
      word_seenAt right rfl
    rcases isBranch with rfl | rfl
    · have decides : (meaning places).decide here (.ofOpcode .beq [x, y, .sym label]) s =
          if value s x = value s y then places label else some (here + 1) := by
        rw [← first, ← second]
        rfl
      by_cases same : value s x = value s y
      · refine Or.inl ⟨label, rfl, if_pos same, ?_⟩
        rw [decides, if_pos same]
      · refine Or.inr ⟨Or.inl rfl, if_neg same, ?_⟩
        rw [decides, if_neg same]
    · have decides : (meaning places).decide here (.ofOpcode .bne [x, y, .sym label]) s =
          if value s x ≠ value s y then places label else some (here + 1) := by
        rw [← first, ← second]
        rfl
      by_cases differ : value s x ≠ value s y
      · refine Or.inl ⟨label, rfl, if_pos differ, ?_⟩
        rw [decides, if_pos differ]
      · refine Or.inr ⟨Or.inr rfl, if_neg differ, ?_⟩
        rw [decides, if_neg differ]
  | jump label => exact Or.inl ⟨label, rfl, rfl, rfl⟩
  | ret op isJump => rcases isJump with rfl | rfl <;> exact absurd stays.symm impossible
  | compute op d x y member => exact absurd ((defs_compute member).2.symm.trans jumps) impossible
  | _ => exact absurd jumps impossible

theorem decide_of_isReturn (here : Nat) (understood : Understood c) (returns : c.isReturn = true) :
    (meaning places).decide here c s = none := by
  have impossible : ¬ false = true := Bool.false_ne_true
  cases understood with
  | ret op isJump => rcases isJump with rfl | rfl <;> rfl
  | compute op d x y member =>
    have jumps := Command.isJump_of_isReturn returns
    exact absurd ((defs_compute member).2.symm.trans jumps) impossible
  | branch op x y label isBranch =>
    rcases isBranch with rfl | rfl <;> exact absurd returns impossible
  | _ => exact absurd returns impossible

/-! ## The machine as an engine -/

theorem engine_steers (places : String → Option Nat) : (engine places).Steers places := by
  refine ⟨fun _ _ _ => rfl, fun s understood jumps => ?_, fun _ _ _ => rfl⟩
  exact (exec_eq_step understood).trans (step_of_isJump understood jumps)

@[simp] theorem halt?_engine : (engine places).halt? a s = none := by
  induction a generalizing s with
  | nil => rfl
  | cons p a ih =>
    rw [Engine.halt?, ih]
    cases p.command? <;> rfl

/-- On the commands that it runs, the machine is an engine that nothing stops. -/
theorem run_engine (runs : ∀ p ∈ code, Runs p) (suffix : rest <:+ code) (fuel : Nat) (s : State) :
    (engine places).run code fuel rest s = (run code fuel rest s).map .ok := by
  induction fuel generalizing rest s with
  | zero => rfl
  | succ fuel ih =>
    cases rest with
    | nil => rfl
    | cons p rest =>
      have member : p ∈ code := suffix.subset (List.mem_cons_self ..)
      have later : rest <:+ code := (List.suffix_cons p rest).trans suffix
      rw [Engine.run, run]
      cases command : p.command? with
      | none => exact ih later s
      | some c =>
        have executes : (engine places).exec c s = step c s :=
          exec_eq_step (runs p member c command)
        simp only [executes]
        cases c.isReturn with
        | true => rfl
        | false =>
          cases goesTo? c s with
          | none => exact ih later _
          | some label => exact ih (List.dropWhile_suffix _) s

theorem ends_iff_results {t : State} (runs : ∀ p ∈ code, Runs p) :
    Ends code s t ↔ (engine places).Results code s (.ok t) := by
  refine exists_congr fun fuel => ?_
  rw [run_engine runs List.suffix_rfl, Option.map_eq_some_iff]
  exact ⟨fun ended => ⟨t, ended, rfl⟩, fun ⟨_, ended, same⟩ => Except.ok.inj same ▸ ended⟩

/-! ## Straight-line code -/

section Straight

variable {E : Type} {K : Engine E} {e : E} {r : Except E State}

theorem run_cons_plain (stays : p.isJump = false) :
    K.run code (fuel + 1) (p :: rest) s =
      (p.command?.bind (K.stop? · s)).elim (K.run code fuel rest (K.execInstr p s))
        (some ∘ .error) := by
  rw [Engine.run]
  unfold Interpretation.execInstr
  cases command : p.command? with
  | none => rfl
  | some c =>
    have remains : c.isJump = false := (Instr.isJump_of_command command).symm.trans stays
    obtain ⟨noReturn, nowhere⟩ := goesTo?_of_plain (s := s) remains
    simp only [noReturn, nowhere, Bool.false_eq_true, if_false, Option.elim_some, Option.bind_some]

/-- Code without jumps is run through, unless something stops it. -/
theorem run_plain (stays : ∀ p ∈ a, p.isJump = false) :
    K.run code (fuel + a.length) (a ++ rest) s =
      (K.halt? a s).elim (K.run code fuel rest (K.execAll a s)) (some ∘ .error) := by
  induction a generalizing s with
  | nil => rfl
  | cons p a ih =>
    obtain ⟨staysHere, staysLater⟩ := List.forall_mem_cons.1 stays
    rw [List.length_cons, ← Nat.add_assoc, List.cons_append, run_cons_plain staysHere,
      ih staysLater, Engine.halt?]
    cases p.command?.bind (K.stop? · s) <;> rfl

/-- Code without jumps takes a step for each instruction, and one more. -/
theorem run_plain_short (stays : ∀ p ∈ a, p.isJump = false) (goesOn : K.halt? a s = none)
    (short : fuel ≤ a.length) : K.run code fuel (a ++ rest) s = none := by
  induction a generalizing s fuel with
  | nil =>
    rw [Nat.le_zero.1 short]
    rfl
  | cons p a ih =>
    obtain ⟨staysHere, staysLater⟩ := List.forall_mem_cons.1 stays
    obtain ⟨here, later⟩ := Option.or_eq_none_iff.1 goesOn
    cases fuel with
    | zero => rfl
    | succ fuel =>
      rw [List.cons_append, run_cons_plain staysHere, here]
      exact ih staysLater later (Nat.le_of_succ_le_succ short)

/-- A longer run has the same outcome. -/
theorem Engine.run_mono (ended : K.run code fuel rest s = some r) (more : Nat) :
    K.run code (fuel + more) rest s = some r := by
  induction fuel generalizing rest s with
  | zero => contradiction
  | succ fuel ih =>
    rw [Nat.add_right_comm]
    cases rest with
    | nil => exact ended
    | cons p rest =>
      unfold Engine.run at ended ⊢
      split at ended
      · exact ih ended
      · split at ended
        · next returns => rwa [if_pos returns]
        · next stays =>
          rw [if_neg stays]
          split at ended
          · exact ih ended
          · cases stops : K.stop? _ s with
            | none =>
              rw [stops] at ended
              exact ih ended
            | some e =>
              rw [stops] at ended
              exact ended

/-- Behind code without jumps, a return ends the run, and another jump goes on at its target or
behind it. -/
theorem run_jump (steers : K.Steers places) (steered : Steered q) (command : q.command? = some c)
    (jumps : c.isJump = true) :
    K.run code (fuel + 1) (q :: rest) s =
      if c.isReturn then some (.ok s)
      else match goesTo? c s with
        | some label => K.run code fuel (behind label code) s
        | none => K.run code fuel rest s := by
  have understood := steered c command jumps
  simp only [Engine.run, command, steers.still s understood jumps, steers.goesOn s understood jumps]
  rfl

/-! The jump at the end of some code only decides where control goes. -/

theorem execAll_concat (steers : K.Steers places) (steered : Steered q)
    (command : q.command? = some c) (jumps : c.isJump = true) :
    K.execAll (a ++ [q]) s = K.execAll a s := by
  rw [Interpretation.execAll_append, Interpretation.execAll_cons, Interpretation.execAll_nil,
    K.execInstr_of_command command]
  exact steers.still _ (steered c command jumps) jumps

theorem halt?_concat (steers : K.Steers places) (steered : Steered q)
    (command : q.command? = some c) (jumps : c.isJump = true) :
    K.halt? (a ++ [q]) s = K.halt? a s := by
  rw [Engine.halt?_append, Engine.halt?, command, Option.bind_some,
    steers.goesOn _ (steered c command jumps) jumps, Engine.halt?, Option.or_none, Option.or_none]

theorem leave_concat (steers : K.Steers places) (command : q.command? = some c)
    (jumps : c.isJump = true) (here : Nat) :
    K.leave here (a ++ [q]) s = some ((meaning places).decide here c (K.execAll a s)) := by
  rw [Interpretation.leave_append, Interpretation.leave_cons,
    K.decideInstr_of_jump command jumps, steers.decides]
  rfl

theorem run_concat (steers : K.Steers places) (steered : Steered q)
    (plain : ∀ p ∈ a, p.isJump = false) (command : q.command? = some c) (jumps : c.isJump = true) :
    K.run code (fuel + (a ++ [q]).length) (a ++ [q] ++ rest) s =
      (K.halt? a s).elim
        (if c.isReturn then some (.ok (K.execAll a s))
        else match goesTo? c (K.execAll a s) with
          | some label => K.run code fuel (behind label code) (K.execAll a s)
          | none => K.run code fuel rest (K.execAll a s)) (some ∘ .error) := by
  rw [List.length_append, List.length_singleton, Nat.add_comm a.length, ← Nat.add_assoc,
    List.append_assoc, run_plain plain, List.singleton_append,
    run_jump steers steered command jumps]

end Straight

end Machine

/-! ## The program of a graph -/

namespace Graph

variable {g : Graph} {places : String → Option Nat} {id : Nat} {b : Block}

/-- The program from a block on. -/
def codeFrom (g : Graph) (id : Nat) : List Instr := (g.blocks.drop id).flatMap Block.code

theorem codeFrom_of_block? (here : g.block? id = some b) :
    g.codeFrom id = b.code ++ g.codeFrom (id + 1) := by
  obtain ⟨inside, isBlock⟩ := List.getElem?_eq_some_iff.1 here
  unfold codeFrom
  rw [List.drop_eq_getElem_cons inside, List.flatMap_cons, isBlock]

theorem codeFrom_of_size_le (outside : g.size ≤ id) : g.codeFrom id = [] := by
  unfold codeFrom
  rw [List.drop_of_length_le outside]
  rfl

/-- Behind a label there is the program from the block on that it leads. -/
theorem behind_flatten {label : String} {place : Nat} (starts : g.StartsAt label place) :
    Machine.behind label g.flatten = g.codeFrom place := by
  obtain ⟨⟨b, here, leads⟩, first⟩ := starts
  obtain ⟨p, isHead, isLabel⟩ := Option.bind_eq_some_iff.1 leads
  obtain ⟨rest, isCode⟩ := List.head?_eq_some_iff.1 isHead
  have front : ∀ q ∈ (g.blocks.take place).flatMap Block.code,
      (decide (q.label? ≠ some label)) = true := by
    intro q member
    obtain ⟨c, isBlock, inside⟩ := List.mem_flatMap.1 member
    obtain ⟨id, there⟩ := List.mem_iff_getElem?.1 isBlock
    have before : id < place := by
      have bound := (List.getElem?_eq_some_iff.1 there).1
      rw [List.length_take] at bound
      omega
    rw [List.getElem?_take_of_lt before] at there
    rw [decide_eq_true_eq]
    exact fun isLabel => first before there (List.mem_filterMap.2 ⟨q, inside, isLabel⟩)
  have split : g.flatten = (g.blocks.take place).flatMap Block.code ++ g.codeFrom place := by
    unfold flatten codeFrom
    rw [← List.flatMap_append, List.take_append_drop]
  unfold Machine.behind
  rw [split, List.dropWhile_append_of_pos front, codeFrom_of_block? here, isCode, List.cons_append,
    List.dropWhile_cons_of_neg]
  simp [isLabel]

/-- Code with its jumps at the end has none, or ends with one. -/
theorem split_of_jumpsLast {code : List Instr} (last : JumpsLast code) :
    (∀ p ∈ code, p.isJump = false) ∨ ∃ a q c, code = a ++ [q] ∧ (∀ p ∈ a, p.isJump = false) ∧
      q.command? = some c ∧ c.isJump = true := by
  induction code with
  | nil => exact Or.inl (by simp)
  | cons p rest ih =>
    cases jumps : p.isJump with
    | true =>
      obtain ⟨c, command, isJump⟩ := (Option.any_eq_true _ _).1 jumps
      exact Or.inr ⟨[], p, c, by simp [last.1 jumps], by simp, command, isJump⟩
    | false =>
      rcases ih last.2 with plain | ⟨a, q, c, rfl, plain, command, isJump⟩
      · exact Or.inl (List.forall_mem_cons.2 ⟨jumps, plain⟩)
      · exact Or.inr ⟨p :: a, q, c, rfl, List.forall_mem_cons.2 ⟨jumps, plain⟩, command, isJump⟩

end Graph

/-! ## Block by block -/

namespace Machine

variable {E : Type} {K : Engine E} {g : Graph} {places : String → Option Nat} {id : Nat} {b : Block}
variable {s : State} {e : E} {r : Except E State}

/-- How an engine goes through a block, given the block that a run of the graph comes to from it. -/
structure BlockRun (K : Engine E) (g : Graph) (id : Nat) (b : Block) (next : Option Nat)
    (s t : State) : Prop where
  halts : ∀ e, K.halt? b.code s = some e →
    ∀ fuel, K.run g.flatten (fuel + b.code.length) (g.codeFrom id) s = some (.error e)
  short : K.halt? b.code s = none →
    ∀ fuel < b.code.length, K.run g.flatten fuel (g.codeFrom id) s = none
  goes : K.halt? b.code s = none → ∀ id', next = some id' →
    id' < g.size ∧ (b.code = [] → id' = id + 1) ∧
      ∀ fuel, K.run g.flatten (fuel + b.code.length) (g.codeFrom id) s =
        K.run g.flatten fuel (g.codeFrom id') t
  stops : K.halt? b.code s = none → next = none → b.succ = [] ∧
    ∀ fuel, K.run g.flatten (fuel + b.code.length + 1) (g.codeFrom id) s = some (.ok t)

/-- An engine goes through a block without jumps to the next one. -/
theorem run_block_plain (laid : g.Laid places) (here : g.block? id = some b)
    (plain : ∀ p ∈ b.code, p.isJump = false) :
    BlockRun K g id b (K.next b s) s (K.execAll b.code s) := by
  have isCode := Graph.codeFrom_of_block? here
  have succ := laid.falls here (exits_of_plain plain)
  have next : K.next b s = if id + 1 < g.size then some (id + 1) else none := by
    unfold Interpretation.next
    rw [Interpretation.leave_eq_none _ plain, laid.regular.place here, succ]
    split <;> simp [Option.filter]
  have through : ∀ fuel, K.run g.flatten (fuel + b.code.length) (g.codeFrom id) s =
      (K.halt? b.code s).elim (K.run g.flatten fuel (g.codeFrom (id + 1)) (K.execAll b.code s))
        (some ∘ .error) := by
    intro fuel
    rw [isCode]
    exact run_plain plain
  refine ⟨fun e halts fuel => ?_, fun goesOn fuel short => ?_, fun goesOn id' isNext => ?_,
    fun goesOn stops => ?_⟩
  · rw [through, halts]
    rfl
  · rw [isCode]
    exact run_plain_short plain goesOn short.le
  · rw [next] at isNext
    split at isNext
    · next inside =>
      cases isNext
      refine ⟨inside, fun _ => rfl, fun fuel => ?_⟩
      rw [through, goesOn]
      rfl
    · contradiction
  · rw [next] at stops
    split at stops
    · contradiction
    · next outside =>
      refine ⟨by rw [succ, if_neg outside], fun fuel => ?_⟩
      rw [Nat.add_right_comm, through, goesOn, Graph.codeFrom_of_size_le (by omega)]
      rfl

/-- An engine goes from a block with a jump where the graph goes. -/
theorem run_block_jump (laid : g.Laid places) (steers : K.Steers places)
    (here : g.block? id = some b) {a : List Instr} {q : Instr} {c : Command}
    (isEnd : b.code = a ++ [q]) (steered : Steered q) (plain : ∀ p ∈ a, p.isJump = false)
    (command : q.command? = some c) (jumps : c.isJump = true) :
    BlockRun K g id b (K.next b s) s (K.execAll b.code s) := by
  have isCode := Graph.codeFrom_of_block? here
  have understood := steered c command jumps
  have exit : c.exit ∈ exits b.code := mem_exits.2 ⟨q, by simp [isEnd], c, command, jumps, rfl⟩
  have halts : K.halt? b.code s = K.halt? a s := isEnd ▸ halt?_concat steers steered command jumps
  generalize isState : K.execAll b.code s = t
  have before : K.execAll a s = t := by
    rw [← isState, isEnd, execAll_concat steers steered command jumps]
  have next : K.next b s = ((meaning places).decide id c t).filter b.succ.contains := by
    unfold Interpretation.next
    rw [laid.regular.place here, isEnd, leave_concat steers command jumps, before]
    rfl
  have through : ∀ fuel, K.run g.flatten (fuel + b.code.length) (g.codeFrom id) s =
      (K.halt? b.code s).elim
        (if c.isReturn then some (.ok t)
        else match goesTo? c t with
          | some label => K.run g.flatten fuel (behind label g.flatten) t
          | none => K.run g.flatten fuel (g.codeFrom (id + 1)) t) (some ∘ .error) := by
    intro fuel
    rw [isCode, halts, isEnd, run_concat steers steered plain command jumps, before]
  have nonempty : b.code ≠ [] := by simp [isEnd]
  have halted : ∀ e, K.halt? b.code s = some e → ∀ fuel,
      K.run g.flatten (fuel + b.code.length) (g.codeFrom id) s = some (.error e) := by
    intro e isHalt fuel
    rw [through, isHalt]
    rfl
  have short : K.halt? b.code s = none → ∀ fuel < b.code.length,
      K.run g.flatten fuel (g.codeFrom id) s = none := by
    intro goesOn fuel isShort
    rw [isEnd, List.length_append, List.length_singleton] at isShort
    rw [isCode, isEnd, List.append_assoc]
    exact run_plain_short plain (halts ▸ goesOn) (by omega)
  -- an edge to the block where the program goes on
  have follows : ∀ place, (meaning places).decide id c t = some place → place ∈ b.succ →
      (K.halt? b.code s = none → ∀ fuel,
        K.run g.flatten (fuel + b.code.length) (g.codeFrom id) s =
          K.run g.flatten fuel (g.codeFrom place) t) →
      BlockRun K g id b (K.next b s) s t := by
    intro place decides edge runsOn
    have isNext : K.next b s = some place := by
      rw [next, decides]
      simp [Option.filter, edge]
    obtain ⟨after, isAfter, -⟩ := laid.regular.succ_pred here edge
    refine ⟨halted, short, fun goesOn id' isPlace => ?_, fun _ stops => ?_⟩
    · cases isNext.symm.trans isPlace
      exact ⟨Graph.lt_size_of_block? isAfter, fun empty => absurd empty nonempty, runsOn goesOn⟩
    · rw [isNext] at stops
      contradiction
  cases returns : c.isReturn with
  | true =>
    have isNext : K.next b s = none := by
      rw [next, decide_of_isReturn id understood returns]
      rfl
    refine ⟨halted, short, fun _ id' isPlace => ?_,
      fun goesOn _ => ⟨laid.returns here exit returns, fun fuel => ?_⟩⟩
    · rw [isNext] at isPlace
      contradiction
    · rw [Nat.add_right_comm, through, goesOn, returns]
      rfl
  | false =>
    rcases goesTo?_cases (s := t) id understood jumps returns with
      ⟨label, target, isTaken, decides⟩ | ⟨branches, isNotTaken, decides⟩
    · obtain ⟨place, isPlace, edge, starts⟩ := laid.jumps here exit target
      refine follows place (decides.trans isPlace) edge fun goesOn fuel => ?_
      rw [through, goesOn, returns, isTaken, ← Graph.behind_flatten starts]
      rfl
    · refine follows (id + 1) decides (laid.branches here exit branches) fun goesOn fuel => ?_
      rw [through, goesOn, returns, isNotTaken]
      rfl

/-- An engine goes through the blocks of a graph as a run of the graph does. -/
theorem run_block (laid : g.Laid places) (steers : K.Steers places) (steered : g.All Steered)
    (here : g.block? id = some b) (s : State) :
    BlockRun K g id b (K.next b s) s (K.execAll b.code s) := by
  rcases Graph.split_of_jumpsLast (laid.last here) with
    plain | ⟨a, q, c, isEnd, plain, command, jumps⟩
  · exact run_block_plain laid here plain
  · have steeredEnd : Steered q := steered here q (by simp [isEnd])
    exact run_block_jump laid steers here isEnd steeredEnd plain command jumps

end Machine

/-! ## Whole runs -/

namespace Interpretation

variable {V M : Type} {I : Interpretation V M} {g : Graph} {id : Nat} {s : MachineState V M}

/-- A run of the graph from a block stops, in a state, at the end of a block that control does not
leave for another one. -/
def Stops (I : Interpretation V M) (g : Graph) (id : Nat) (s t : MachineState V M) : Prop :=
  ∃ n last u b, I.visit g id s n = some (last, u) ∧ g.block? last = some b ∧ I.next b u = none ∧
    t = I.execAll b.code u

/-- A run may be looked at from its second block on. -/
theorem visit_succ {point : Nat × MachineState V M} (hops : I.hop g (id, s) = some point)
    (n : Nat) : I.visit g id s (n + 1) = I.visit g point.1 point.2 n := by
  induction n with
  | zero => exact hops
  | succ n ih =>
    rw [visit, ih]
    rfl

theorem hop_of_next {id' : Nat} {b : Block} (here : g.block? id = some b)
    (isNext : I.next b s = some id') : I.hop g (id, s) = some (id', I.execAll b.code s) := by
  simp [hop, here, isNext]

end Interpretation

namespace Machine

variable {E : Type} {K : Engine E} {g : Graph} {places : String → Option Nat} {s t : State}

/-- The outcome of a run in a block: something stops the program there, or control does not leave
the block for another one. -/
inductive Outcome (K : Engine E) (b : Block) (s : State) : Except E State → Prop
  | halted {e : E} : K.halt? b.code s = some e → Outcome K b s (.error e)
  | stopped : K.halt? b.code s = none → K.next b s = none →
    Outcome K b s (.ok (K.execAll b.code s))

/-- Where a run of the program from a block has an outcome, a run of the graph comes to it. -/
theorem outcome_of_run (laid : g.Laid places) (steers : K.Steers places) (steered : g.All Steered)
    {s : State} {r : Except E State} {fuel id : Nat} (inside : id < g.size)
    (ended : K.run g.flatten fuel (g.codeFrom id) s = some r) :
    ∃ n last u b, K.visit g id s n = some (last, u) ∧ g.block? last = some b ∧ Outcome K b u r := by
  obtain ⟨b, here⟩ := Graph.block?_of_lt_size inside
  have blockRun := run_block laid steers steered here s
  cases goesOn : K.halt? b.code s with
  | some e =>
    have longer := Engine.run_mono ended b.code.length
    rw [blockRun.halts e goesOn] at longer
    cases longer
    exact ⟨0, id, s, b, rfl, here, .halted goesOn⟩
  | none =>
    cases isNext : K.next b s with
    | none =>
      obtain ⟨-, stops⟩ := blockRun.stops goesOn isNext
      have longer := Engine.run_mono ended (b.code.length + 1)
      rw [← Nat.add_assoc, stops] at longer
      cases longer
      exact ⟨0, id, s, b, rfl, here, .stopped goesOn isNext⟩
    | some id' =>
      obtain ⟨inside', empty, runs⟩ := blockRun.goes goesOn id' isNext
      have enough : b.code.length ≤ fuel := by
        by_contra short
        rw [blockRun.short goesOn fuel (by omega)] at ended
        contradiction
      obtain ⟨left, isLeft⟩ := Nat.exists_eq_add_of_le' enough
      rw [isLeft, runs] at ended
      -- there is less to do, or the run is further on in the program
      have lighter : left < fuel ∨ left = fuel ∧ id < id' := by
        rw [isLeft]
        cases isCode : b.code with
        | nil =>
          rw [empty isCode]
          exact Or.inr ⟨rfl, Nat.lt_succ_self id⟩
        | cons p rest => exact Or.inl (by simp)
      obtain ⟨n, last, u, c, visited, isLast, outcome⟩ :=
        outcome_of_run laid steers steered inside' ended
      refine ⟨n + 1, last, u, c, ?_, isLast, outcome⟩
      rw [Interpretation.visit_succ (Interpretation.hop_of_next here isNext), visited]
termination_by (fuel, g.size - id)
decreasing_by
  rcases lighter with less | ⟨same, further⟩
  · exact Prod.Lex.left _ _ less
  · rw [same]
    exact Prod.Lex.right _ (by omega)

/-- A run of the graph is one of the program, as long as nothing stops that. -/
theorem run_of_visit (laid : g.Laid places) (steers : K.Steers places) (steered : g.All Steered)
    {n id : Nat} {u : State} (visited : K.visit g 0 s n = some (id, u)) :
    (∃ e, K.Results g.flatten s (.error e)) ∨
      ∃ steps, ∀ fuel, K.run g.flatten (fuel + steps) g.flatten s =
        K.run g.flatten fuel (g.codeFrom id) u := by
  induction n generalizing id u with
  | zero =>
    cases visited
    exact Or.inr ⟨0, fun _ => rfl⟩
  | succ n ih =>
    obtain ⟨last, v, b, before, here, isNext, rfl⟩ := K.visit_succ_eq_some visited
    rcases ih before with stopped | ⟨steps, runs⟩
    · exact Or.inl stopped
    · have blockRun := run_block laid steers steered here v
      cases goesOn : K.halt? b.code v with
      | some e =>
        refine Or.inl ⟨e, 0 + b.code.length + steps, ?_⟩
        rw [runs, blockRun.halts e goesOn]
      | none =>
        obtain ⟨-, -, runsOn⟩ := blockRun.goes goesOn id isNext
        refine Or.inr ⟨b.code.length + steps, fun fuel => ?_⟩
        rw [← Nat.add_assoc, runs, runsOn]

/-- Where a run of the graph comes to an outcome, one of the program does, unless something stops
it before. -/
theorem outcome_of_visit (laid : g.Laid places) (steers : K.Steers places)
    (steered : g.All Steered) {n id : Nat} {u : State} {b : Block} {r : Except E State}
    (visited : K.visit g 0 s n = some (id, u)) (here : g.block? id = some b)
    (outcome : Outcome K b u r) :
    (∃ e, K.Results g.flatten s (.error e)) ∨ K.Results g.flatten s r := by
  refine (run_of_visit laid steers steered visited).imp_right fun ⟨steps, runs⟩ => ?_
  have blockRun := run_block laid steers steered here u
  cases outcome with
  | halted halts =>
    refine ⟨0 + b.code.length + steps, ?_⟩
    rw [runs, blockRun.halts _ halts]
  | stopped goesOn isEnd =>
    refine ⟨0 + b.code.length + 1 + steps, ?_⟩
    rw [runs, (blockRun.stops goesOn isEnd).2]

/-- The machine ends in the states in which runs of the graph stop. -/
theorem ends_iff_stops (wired : g.Wired places) (nonempty : 0 < g.size) :
    Ends g.flatten s t ↔ (meaning places).Stops g 0 s t := by
  have steers := engine_steers places
  have steered : g.All Steered := steered_of_wired wired
  rw [@ends_iff_results places _ _ _ (Graph.all_iff.1 wired.runs)]
  constructor
  · rintro ⟨fuel, ended⟩
    obtain ⟨n, last, u, b, visited, here, outcome⟩ :=
      outcome_of_run wired.toLaid steers steered nonempty ended
    cases outcome with
    | stopped _ isEnd => exact ⟨n, last, u, b, visited, here, isEnd, rfl⟩
  · rintro ⟨n, last, u, b, visited, here, isEnd, rfl⟩
    rcases outcome_of_visit (K := engine places) wired.toLaid steers steered visited here
      (.stopped halt?_engine isEnd) with ⟨e, -⟩ | results
    · exact e.elim
    · exact results

end Machine

end MipsFlow
