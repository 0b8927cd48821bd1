import MipsFlow.Proofs.AgreeingRuns
import MipsFlow.Proofs.JumpPass
import MipsFlow.Proofs.TrappingPasses

/-!
# Overflows in programs and their graphs

A program *overruns* if the machine that goes on behind traps comes to an overflow. It does so where
the machine with traps stops for an overflow; and where it does, the machine with traps stops, for
that overflow or for something before (`Overruns.of_traps`, `Overruns.traps`). Of a trap that is not
an overflow it says nothing: such a trap may be lost when the program is changed, and a later
overflow must still be found then.

A graph *strikes* if its run comes to a block that overflows, which is the same for its program
(`overruns_iff_strikes`). Both ways to change the code of a graph keep that: improving its blocks,
if that keeps their overflows (`Improved.strikes`), and exchanging code for code that runs alike
(`Follows.strikes`).
-/

namespace MipsFlow

namespace Machine

/-! ## Stopping at an alarm -/

section Alarmed

variable {alarm : Inputs Word Memory → Prop} [DecidablePred alarm]
variable {I : Interpretation Word Memory} {code rest : List Instr} {s : State} {c : Command}

/-- The engine that stops where the inputs of a command give an alarm. -/
def alarmed (I : Interpretation Word Memory) (alarm : Inputs Word Memory → Prop)
    [DecidablePred alarm] : Engine Unit where
  toInterpretation := I
  stop? c s := if alarm (I.inputs c s) then some () else none

/-- Straight-line code is stopped if it raises an alarm. -/
theorem halt?_alarmed : (alarmed I alarm).halt? code s = some () ↔ I.Raises alarm code s := by
  induction code generalizing s with
  | nil => simp [Engine.halt?]
  | cons p rest ih =>
    rw [Engine.halt?, Interpretation.raises_cons, ← ih]
    cases command : p.command? with
    | none =>
      rw [or_iff_right (Interpretation.not_sounds_of_none command)]
      rfl
    | some c =>
      have stops : (alarmed I alarm).stop? c s =
          if alarm (I.inputs c s) then some () else none := rfl
      rw [Interpretation.sounds_of_command command, Option.bind_some, stops]
      by_cases alarms : alarm (I.inputs c s)
      · simp [alarms]
      · simp only [alarms, if_false, false_or]
        rfl

end Alarmed

/-! ## Overruns -/

instance : DecidablePred Overflows := fun i => by
  unfold Overflows
  split <;> infer_instance

variable {places : String → Option Nat} {code rest : List Instr} {s : State} {p : Instr}
variable {c : Command}

/-- The machine that goes on behind traps, up to an overflow. -/
def upToOverflow (places : String → Option Nat) : Engine Unit := alarmed (onward places) Overflows

/-- The program, started in the state, comes to an overflow if it goes on behind traps. -/
def Overruns (code : List Instr) (s : State) : Prop :=
  (upToOverflow fun _ => none).Results code s (.error ())

/-- Where labels are makes no difference to a program. -/
theorem run_upToOverflow (fuel : Nat) : (upToOverflow places).run code fuel rest s =
    (upToOverflow fun _ => none).run code fuel rest s := by
  induction fuel generalizing rest s with
  | zero => rfl
  | succ fuel ih =>
    cases rest with
    | nil => rfl
    | cons p rest =>
      rw [Engine.run, Engine.run]
      simp only [ih]
      rfl

theorem overruns_iff :
    Overruns code s ↔ (upToOverflow places).Results code s (.error ()) :=
  exists_congr fun fuel => by rw [@run_upToOverflow places]

/-- At jumps nothing overflows, and the machine that goes on behind traps does what the machine
does. -/
theorem upToOverflow_steers (places : String → Option Nat) :
    (upToOverflow places).Steers places := by
  refine ⟨fun _ _ _ => rfl, fun s understood jumps => ?_, fun s understood _ => if_neg ?_⟩
  · show (onward places).exec _ s = s
    rw [exec_onward (op?_of_understood understood), exec_eq_step understood,
      step_of_isJump understood jumps]
  · intro overflows
    obtain ⟨op, isOp, traps⟩ := has_trap_of_overflows overflows
    exact not_trap_of_understood understood isOp traps

/-- If the machine with traps stops for an overflow, there is one. If there is one, the machine with
traps stops, there or before. -/
theorem runTrapping_overflow (admits : ∀ p ∈ code, Admits p) (suffix : rest <:+ code) (fuel : Nat) :
    (runTrapping code fuel rest s = some (.error .overflow) →
      (upToOverflow fun _ => none).run code fuel rest s = some (.error ())) ∧
    ((upToOverflow fun _ => none).run code fuel rest s = some (.error ()) →
      ∃ trap, runTrapping code fuel rest s = some (.error trap)) := by
  induction fuel generalizing rest s with
  | zero => exact ⟨fun stops => (by cases stops), fun stops => (by cases stops)⟩
  | succ fuel ih =>
    cases rest with
    | nil => exact ⟨fun stops => (by cases stops), fun stops => (by cases stops)⟩
    | cons p rest =>
      obtain ⟨member, later⟩ := Control.suffix_of_cons suffix
      rw [runTrapping, Engine.run]
      cases command : p.command? with
      | none => exact ih later
      | some c =>
        dsimp only
        split
        · exact ⟨fun stops => (by cases stops), fun stops => (by cases stops)⟩
        · cases goesTo? c s with
          | some label => exact ih (List.dropWhile_suffix _)
          | none =>
            cases ((admits p member c command).stepped : Stepped (fun _ => none) c s) with
            | goes steps calm =>
              rw [steps, show (upToOverflow fun _ => none).stop? c s = none from if_neg calm]
              exact ih later
            | stops trap stops overflows =>
              rw [stops]
              refine ⟨fun same => ?_, fun _ => ⟨trap, rfl⟩⟩
              have isOverflow : trap = .overflow := by simpa using same
              have stops' : (upToOverflow fun _ => none).stop? c s = some () :=
                if_pos (overflows isOverflow)
              rw [stops']
              rfl

theorem Overruns.of_traps (admits : ∀ p ∈ code, Admits p) (traps : Traps code s .overflow) :
    Overruns code s :=
  traps.imp fun fuel => (runTrapping_overflow admits List.suffix_rfl fuel).1

theorem Overruns.traps (admits : ∀ p ∈ code, Admits p) (overruns : Overruns code s) :
    ∃ trap, Traps code s trap := by
  obtain ⟨fuel, stops⟩ := overruns
  obtain ⟨trap, stopped⟩ := (runTrapping_overflow admits List.suffix_rfl fuel).2 stops
  exact ⟨trap, fuel, stopped⟩

theorem Admits.steered (admits : Admits p) : Steered p := fun c command jumps =>
  (admits c command).understood_of_isJump jumps

end Machine

/-! ## Graphs -/

open Machine

/-- The run of the graph that goes on behind traps comes to a block that overflows. -/
def Graph.Strikes (places : String → Option Nat) (g : Graph) (s : Machine.State) : Prop :=
  ∃ n id u b, (onward places).visit g 0 s n = some (id, u) ∧ g.block? id = some b ∧
    Machine.Strikes places b.code u

variable {g g' : Graph} {places : String → Option Nat} {s : Machine.State}

/-- The program of a graph overruns where the graph strikes. -/
theorem Graph.overruns_iff_strikes (laid : g.Laid places) (admits : g.All Admits)
    (nonempty : 0 < g.size) : Overruns g.flatten s ↔ g.Strikes places s := by
  have steers := upToOverflow_steers places
  have steered : g.All Steered := fun here p member => (admits here p member).steered
  rw [@overruns_iff places]
  constructor
  · rintro ⟨fuel, stops⟩
    obtain ⟨n, last, u, b, visited, here, outcome⟩ :=
      outcome_of_run laid steers steered nonempty stops
    cases outcome with
    | halted halts => exact ⟨n, last, u, b, visited, here, halt?_alarmed.1 halts⟩
  · rintro ⟨n, id, u, b, visited, here, strikes⟩
    have halts : (upToOverflow places).halt? b.code u = some () := halt?_alarmed.2 strikes
    rcases outcome_of_visit laid steers steered visited here (.halted halts) with ⟨_, stops⟩ | stops
    · exact stops
    · exact stops

/-- Improving the blocks of a graph loses no overflow if it loses none in a block. -/
theorem Graph.Improved.strikes {f : Facts} {reserved : List Reg}
    (improved : Improved (onward places) f g g') (known : g.All fun p => p.isKnown = true)
    (sound : f.LiveSound g reserved)
    (keeps : ∀ {id : Nat} {b b' : Block}, g.block? id = some b → g'.block? id = some b' →
      ∀ t, Machine.Strikes places b.code t → Machine.Strikes places b'.code t)
    (strikes : g.Strikes places s) : g'.Strikes places s := by
  obtain ⟨n, id, u, b, visited, here, overflows⟩ := strikes
  obtain ⟨u', visited', agree⟩ := (visited ▸ improved.visit known sound s n).of_some_left
  obtain ⟨code, there⟩ := improved.shape.block? here
  have live : AgreeOn (onward places)
      (Liveness.liveIn f.reserved b.unresolved (f.live.exitOf id) b.code) u u' :=
    agree.mono fun r member => sound.block here member
  exact ⟨n, id, u', _, visited', there, keeps here there u'
    ((Interpretation.raises_of_agree (known here) live).1 overflows)⟩

/-- Code that runs alike overflows alike. -/
theorem Follows.strikes (follows : Follows (onward places) 0 s g g')
    (strikes : g.Strikes places s) : g'.Strikes places s := by
  obtain ⟨n, id, u, b, visited, here, overflows⟩ := strikes
  obtain ⟨code, there⟩ := follows.shape.block? here
  exact ⟨n, id, u, _, (follows.visit_eq n).trans visited, there,
    (follows.alike visited here there).raises_iff.2 overflows⟩

end MipsFlow
