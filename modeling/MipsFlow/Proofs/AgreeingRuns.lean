import MipsFlow.Proofs.FlatRuns

/-!
# Runs that agree on what is live

A graph *improves* another one if the code of each of its blocks improves that of the corresponding
block, for what the facts say is live behind it. The two then go through the same blocks, and the
states at their entries agree on what is live there (`Improved.visit`). So they stop together, and
the states in which they stop agree on what is live where the program ends (`Improved.endAlike`).

`EndAlike` is that relation between programs: they end from the same states, with the same memory
and the same values in certain registers.
-/

namespace MipsFlow

/-! ## Programs that end alike -/

namespace Machine

/-- The two states have the same memory, and the same values in the registers of the set. -/
def Agree (kept : FactSet Reg) (s t : State) : Prop :=
  s.mem = t.mem ∧ ∀ r ∈ kept, value s (.reg r) = value t (.reg r)

/-- The two programs end from the same states, and then in states that agree. -/
structure EndAlike (kept : FactSet Reg) (code code' : List Instr) : Prop where
  forth : ∀ {s t : State}, Ends code s t → ∃ t', Ends code' s t' ∧ Agree kept t t'
  back : ∀ {s t' : State}, Ends code' s t' → ∃ t, Ends code s t ∧ Agree kept t t'

namespace EndAlike

variable {kept : FactSet Reg} {a b c : List Instr}

theorem of_iff (same : ∀ s t, Ends a s t ↔ Ends b s t) : EndAlike kept a b :=
  ⟨fun ends => ⟨_, (same _ _).1 ends, rfl, fun _ _ => rfl⟩,
    fun ends => ⟨_, (same _ _).2 ends, rfl, fun _ _ => rfl⟩⟩

theorem refl (code : List Instr) : EndAlike kept code code := .of_iff fun _ _ => Iff.rfl

theorem trans (first : EndAlike kept a b) (second : EndAlike kept b c) : EndAlike kept a c := by
  have agrees : ∀ {s t u : State}, Agree kept s t → Agree kept t u → Agree kept s u :=
    fun left right => ⟨left.1.trans right.1, fun r member =>
      (left.2 r member).trans (right.2 r member)⟩
  refine ⟨fun ends => ?_, fun ends => ?_⟩
  · obtain ⟨t, ends', agree⟩ := first.forth ends
    obtain ⟨u, ends'', agree'⟩ := second.forth ends'
    exact ⟨u, ends'', agrees agree agree'⟩
  · obtain ⟨t, ends', agree⟩ := second.back ends
    obtain ⟨u, ends'', agree'⟩ := first.back ends'
    exact ⟨u, ends'', agrees agree' agree⟩

end EndAlike

end Machine

/-! ## Improving the blocks of a graph -/

/-- Facts about live registers keep their promise of a graph whose blocks need no more than
before. -/
theorem Facts.LiveSound.recode {f : Facts} {g g' : Graph} {reserved : List Reg}
    (sound : f.LiveSound g reserved) (shape : g.SameShape g')
    (fewer : ∀ {id : Nat} {b b' : Block}, g.block? id = some b → g'.block? id = some b' →
      ∀ r ∈ Liveness.liveIn f.reserved b.unresolved (f.live.exitOf id) b'.code,
        r ∈ Liveness.liveIn f.reserved b.unresolved (f.live.exitOf id) b.code) :
    f.LiveSound g' reserved := by
  refine ⟨?_, ?_, ?_⟩
  · intro id next b' r there edge live
    obtain ⟨code, here⟩ := shape.symm.block? there
    exact sound.edge here edge live
  · intro id b' r there none live
    obtain ⟨code, here⟩ := shape.symm.block? there
    exact sound.ends here none live
  · intro id b' r there live
    obtain ⟨code, here⟩ := shape.symm.block? there
    exact sound.block here (fewer here there r live)

/-- The second graph differs from the first in code, and the code of each block improves the one
before for what the facts say is live behind the block. -/
structure Graph.Improved (I : Interpretation Word Memory) (f : Facts) (g g' : Graph) : Prop where
  shape : g.SameShape g'
  improves : ∀ {id : Nat} {b b' : Block}, g.block? id = some b → g'.block? id = some b' →
    Improves I f.reserved (f.live.exitOf id) b.code b'.code

/-- The two points of runs are in the same block, and the states agree on what is live there; or
both runs have stopped before. -/
def Abreast (I : Interpretation Word Memory) (f : Facts) :
    Option (Nat × Machine.State) → Option (Nat × Machine.State) → Prop
  | none, none => True
  | some (id, s), some (id', s') => id' = id ∧ AgreeOn I (f.live.entryOf id) s s'
  | _, _ => False

namespace Abreast

variable {I : Interpretation Word Memory} {f : Facts} {id : Nat} {s : Machine.State}
variable {point? : Option (Nat × Machine.State)}

theorem of_some_left (abreast : Abreast I f (some (id, s)) point?) :
    ∃ s', point? = some (id, s') ∧ AgreeOn I (f.live.entryOf id) s s' := by
  cases point? with
  | none => exact abreast.elim
  | some point =>
    obtain ⟨id', s'⟩ := point
    obtain ⟨rfl, agree⟩ := abreast
    exact ⟨s', rfl, agree⟩

theorem of_some_right (abreast : Abreast I f point? (some (id, s))) :
    ∃ s', point? = some (id, s') ∧ AgreeOn I (f.live.entryOf id) s' s := by
  cases point? with
  | none => exact abreast.elim
  | some point =>
    obtain ⟨id', s'⟩ := point
    obtain ⟨rfl, agree⟩ := abreast
    exact ⟨s', rfl, agree⟩

theorem of_none_left (abreast : Abreast I f none point?) : point? = none := by
  cases point? with
  | none => rfl
  | some point => exact abreast.elim

end Abreast

namespace Graph.Improved

open Machine

variable {I : Interpretation Word Memory} {places : String → Option Nat} {f : Facts} {g g' : Graph}
variable {reserved : List Reg} {id : Nat} {b b' : Block} {s s' : Machine.State}

/-- Exchanging the code of one block. -/
theorem setCode {code : List Instr} (here : g.block? id = some b)
    (improves : Improves I f.reserved (f.live.exitOf id) b.code code) :
    Improved I f g (g.setCode id code) :=
  ⟨.setCode code, setCode_related
    (R := fun place c c' => Improves I f.reserved (f.live.exitOf place) c.code c'.code) here
    improves fun _ _ => .of_content rfl⟩

/-- The facts keep their promise. -/
theorem liveSound (improved : Improved I f g g') (laid : g.Laid places)
    (sound : f.LiveSound g reserved) : f.LiveSound g' reserved := by
  refine sound.recode improved.shape fun here there r live => ?_
  rw [laid.resolved here] at live ⊢
  exact (improved.improves here there).live r live

/-- States that agree at the entry of a block agree at its exit, and control goes on to the same
block. -/
theorem block (improved : Improved I f g g') (known : g.All fun p => p.isKnown = true)
    (sound : f.LiveSound g reserved) (here : g.block? id = some b) (there : g'.block? id = some b')
    (agree : AgreeOn I (f.live.entryOf id) s s') :
    AgreeOn I (f.live.exitOf id) (I.execAll b.code s) (I.execAll b'.code s') ∧
      I.next b' s' = I.next b s := by
  have improves := improved.improves here there
  have live : AgreeOn I
      (Liveness.liveIn f.reserved b.unresolved (f.live.exitOf id) b.code) s s' :=
    agree.mono fun r member => sound.block here member
  obtain ⟨ends, leaves⟩ := Liveness.agree_execAll (known here) live
  refine ⟨ends.trans (improves.ends s'), ?_⟩
  obtain ⟨code, isNew⟩ := improved.shape.block? here
  cases there.symm.trans isNew
  unfold Interpretation.next
  rw [improves.leaves, leaves]

/-- The two graphs run abreast. -/
theorem visit (improved : Improved I f g g') (known : g.All fun p => p.isKnown = true)
    (sound : f.LiveSound g reserved) (s : Machine.State) (n : Nat) :
    Abreast I f (I.visit g 0 s n) (I.visit g' 0 s n) := by
  induction n with
  | zero => exact ⟨rfl, .refl ..⟩
  | succ n ih =>
    unfold Interpretation.visit
    cases visited : I.visit g 0 s n with
    | none =>
      rw [visited] at ih
      rw [ih.of_none_left]
      trivial
    | some point =>
      obtain ⟨id, t⟩ := point
      rw [visited] at ih
      obtain ⟨t', visited', agree⟩ := ih.of_some_left
      rw [visited']
      simp only [Option.bind_some, Interpretation.hop]
      cases here : g.block? id with
      | none =>
        rw [improved.shape.block?_none here]
        trivial
      | some b =>
        obtain ⟨code, there⟩ := improved.shape.block? here
        obtain ⟨ends, goes⟩ := improved.block known sound here there agree
        rw [there]
        simp only [Option.bind_some, goes]
        cases next : I.next b t with
        | none => trivial
        | some after =>
          have edge : after ∈ b.succ := I.mem_succ_of_next next
          exact ⟨rfl, ends.mono fun r member => sound.edge here edge member⟩

/-- If one of the two runs stops, so does the other, in a state that agrees with it. -/
theorem stops (improved : Improved (meaning places) f g g') (wired : g.Wired places)
    (sound : f.LiveSound g reserved) {u u' : Machine.State}
    (here : g.block? id = some b) (there : g'.block? id = some b')
    (agree : AgreeOn (meaning places) (f.live.entryOf id) u u') :
    ((meaning places).next b u = none ↔ (meaning places).next b' u' = none) ∧
      ((meaning places).next b u = none → Agree (Liveness.atExit reserved)
        ((meaning places).execAll b.code u) ((meaning places).execAll b'.code u')) := by
  obtain ⟨ends, goes⟩ := improved.block wired.known sound here there agree
  refine ⟨by rw [goes], fun isEnd => ?_⟩
  have blockRun := run_block wired.toLaid (engine_steers places) (steered_of_wired wired) here u
  have noEdge := (blockRun.stops halt?_engine isEnd).1
  exact ends.mono fun r member => sound.ends here noEdge member

/-- Improving the blocks of a graph does not change how its program ends. -/
theorem endAlike (improved : Improved (meaning places) f g g') (wired : g.Wired places)
    (wired' : g'.Wired places) (sound : f.LiveSound g reserved) (nonempty : 0 < g.size) :
    EndAlike (Liveness.atExit reserved) g.flatten g'.flatten := by
  have nonempty' : 0 < g'.size := by rwa [improved.shape.size_eq]
  refine ⟨fun {s t} ends => ?_, fun {s t'} ends => ?_⟩
  · obtain ⟨n, last, u, b, visited, here, isEnd, rfl⟩ := (ends_iff_stops wired nonempty).1 ends
    obtain ⟨u', visited', agree⟩ := (visited ▸ improved.visit wired.known sound s n).of_some_left
    obtain ⟨code, there⟩ := improved.shape.block? here
    obtain ⟨isEnd', agrees⟩ := improved.stops wired sound here there agree
    refine ⟨_, (ends_iff_stops wired' nonempty').2 ?_, agrees isEnd⟩
    exact ⟨n, last, u', _, visited', there, isEnd'.1 isEnd, rfl⟩
  · obtain ⟨n, last, u', b', visited', there, isEnd, rfl⟩ :=
      (ends_iff_stops wired' nonempty').1 ends
    obtain ⟨u, visited, agree⟩ := (visited' ▸ improved.visit wired.known sound s n).of_some_right
    obtain ⟨code, here⟩ := improved.shape.symm.block? there
    obtain ⟨isEnd', agrees⟩ := improved.stops wired sound here there agree
    refine ⟨_, (ends_iff_stops wired nonempty).2 ?_, agrees (isEnd'.2 isEnd)⟩
    exact ⟨n, last, u, _, visited, here, isEnd'.2 isEnd, rfl⟩

end Graph.Improved

/-- Graphs that run alike have programs that end alike. -/
theorem Follows.endAlike {places : String → Option Nat} {g g' : Graph} {kept : FactSet Reg}
    (follows : ∀ s, Follows (Machine.meaning places) 0 s g g') (wired : g.Wired places)
    (wired' : g'.Wired places) (nonempty : 0 < g.size) :
    Machine.EndAlike kept g.flatten g'.flatten := by
  have shape := (follows ⟨fun _ => 0, fun _ => 0⟩).shape
  have nonempty' : 0 < g'.size := by rwa [shape.size_eq]
  refine .of_iff fun s t => ?_
  rw [Machine.ends_iff_stops wired nonempty, Machine.ends_iff_stops wired' nonempty']
  have same : ∀ {n id : Nat} {u : Machine.State} {b b' : Block},
      (Machine.meaning places).visit g 0 s n = some (id, u) → g.block? id = some b →
      g'.block? id = some b' →
      (Machine.meaning places).next b' u = (Machine.meaning places).next b u ∧
        (Machine.meaning places).execAll b'.code u = (Machine.meaning places).execAll b.code u := by
    intro n id u b b' visited here there
    have alike := (follows s).alike visited here there
    obtain ⟨code, isNew⟩ := shape.block? here
    cases there.symm.trans isNew
    refine ⟨?_, alike.execAll_eq⟩
    unfold Interpretation.next
    rw [alike.leave_eq]
  constructor
  · rintro ⟨n, last, u, b, visited, here, isEnd, rfl⟩
    obtain ⟨code, there⟩ := shape.block? here
    obtain ⟨goes, ends⟩ := same visited here there
    exact ⟨n, last, u, _, ((follows s).visit_eq n).trans visited, there, goes.trans isEnd,
      ends.symm⟩
  · rintro ⟨n, last, u, b', visited', there, isEnd, rfl⟩
    have visited := ((follows s).visit_eq n).symm.trans visited'
    obtain ⟨code, here⟩ := shape.symm.block? there
    obtain ⟨goes, ends⟩ := same visited here there
    exact ⟨n, last, u, _, visited, here, goes.symm.trans isEnd, ends⟩

end MipsFlow
