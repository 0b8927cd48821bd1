import MipsFlow.Proofs.Attempts.Propagation
import MipsFlow.Proofs.DeadCodePass

/-!
# Removing from the end

Dead code elimination collects the places of the dead commands, which are in order, and then removes
what stands there from the last place on. What is removed behind a place leaves it inside the block.
-/

namespace MipsFlow

namespace DeadCode

variable {v : View} {code : List Instr} {i k : Nat}

/-- The places of dead instructions are inside the list and in order. -/
theorem pairwise_deadFrom (v : View) (i : Nat) (code : List Instr) :
    (deadFrom v i code).Pairwise (· < ·) ∧
      ∀ place ∈ deadFrom v i code, i ≤ place ∧ place < i + code.length := by
  induction code generalizing i with
  | nil => exact ⟨.nil, by simp [deadFrom]⟩
  | cons p rest ih =>
    obtain ⟨ordered, bounds⟩ := ih (i + 1)
    have later : ∀ place ∈ deadFrom v (i + 1) rest, i < place ∧ place < i + (p :: rest).length := by
      intro place member
      obtain ⟨above, below⟩ := bounds place member
      rw [List.length_cons]
      omega
    unfold deadFrom
    split
    · refine ⟨List.pairwise_cons.2 ⟨fun place member => (later place member).1, ordered⟩, ?_⟩
      refine List.forall_mem_cons.2 ⟨⟨Nat.le_refl i, by simp⟩, fun place member => ?_⟩
      exact ⟨(later place member).1.le, (later place member).2⟩
    · exact ⟨ordered, fun place member => ⟨(later place member).1.le, (later place member).2⟩⟩

theorem length_removeAt (inside : i < code.length) :
    (removeAt v i code).length = code.length - 1 := by
  have same := congrArg List.length (bare_removeAt (v := v) i code)
  rwa [List.length_map, List.length_eraseIdx_of_lt (by simpa using inside), List.length_map] at same

end DeadCode

namespace Attempt

variable {f : Facts} {b : Block} {v : View} {code : List Instr} {i : Nat}

/-- The instruction has no effect besides what it writes to registers. -/
def isPureOf (p : Instr) : Attempt Bool := ask false isPure p

@[simp] theorem isPureOf_eq (p : Instr) :
    isPureOf p = pure (p.isCommandWith Command.isPure) := by
  rw [isPureOf, ask_eq isPure_eq, Instr.isCommandWith]
  cases p.command? <;> rfl

/-- Nobody needs what the instruction at a place of a block does. -/
def isDead (f : Facts) (b : Block) (i : Nat) : Attempt Bool := do
  let p ← index b.code i
  let written ← defsOf p
  if !(← isPureOf p) || written.isEmpty then return false
  else written.allM (deadFrom f b (i + 1))

theorem isDead_eq {p : Instr} (known : b.id < f.live.exit.length) (annotated : Bool)
    (here : b.code[i]? = some p) : isDead f b i =
      pure (DeadCode.isDead (f.view annotated b) p (b.code.drop (i + 1))) := by
  have dead : p.defs.allM (deadFrom f b (i + 1)) =
      pure (p.defs.all ((f.view annotated b).dead (b.code.drop (i + 1)))) :=
    allM_eq fun r _ => deadFrom_eq known annotated (i + 1) r
  rw [isDead, index_eq here, pure_bind, defsOf_eq, pure_bind, isPureOf_eq, pure_bind, dead,
    DeadCode.isDead]
  cases p.isCommandWith Command.isPure <;> cases p.defs.isEmpty <;> rfl

/-- Collects a place where a dead instruction stands. -/
def collectDead (f : Facts) (b : Block) (found : List Nat) (i : Nat) : Attempt (List Nat) := do
  if ← isDead f b i then return found ++ [i] else return found

/-- The places of the dead instructions of a block. -/
def deadPlaces (f : Facts) (b : Block) : Attempt (List Nat) :=
  (List.range b.code.length).foldlM (collectDead f b) []

theorem deadPlaces_eq (known : b.id < f.live.exit.length) (annotated : Bool) :
    deadPlaces f b = pure (DeadCode.deadFrom (f.view annotated b) 0 b.code) := by
  suffices behind : ∀ n i found, i + n = b.code.length →
      (List.range' i n).foldlM (collectDead f b) found =
        pure (found ++ DeadCode.deadFrom (f.view annotated b) i (b.code.drop i)) by
    rw [deadPlaces, List.range_eq_range', behind b.code.length 0 [] (Nat.zero_add _)]
    rfl
  intro n
  induction n with
  | zero =>
    intro i found ends
    rw [List.drop_of_length_le (by omega), DeadCode.deadFrom, List.append_nil]
    rfl
  | succ n ih =>
    intro i found ends
    have here : i < b.code.length := by omega
    rw [List.range'_succ, List.foldlM_cons, collectDead,
      isDead_eq known annotated (List.getElem?_eq_getElem here), pure_bind,
      List.drop_eq_getElem_cons here, DeadCode.deadFrom]
    split
    · rw [pure_bind, ih (i + 1) _ (by omega), List.append_assoc, List.singleton_append]
    · rw [pure_bind, ih (i + 1) _ (by omega)]

/-- Removes the instruction at a place. -/
def removeAt (annotated : Bool) (i : Nat) (code : List Instr) : Attempt (List Instr) := do
  let p ← index code i
  let k : Cursor := { code, annotated, room := code.length }
  let k ← call (k.replaceAt i 1 [] ("dead code removed: " ++ p.text))
  return k.code

theorem removeAt_eq (inside : i < code.length) :
    removeAt v.annotated i code = pure (DeadCode.removeAt v i code) := by
  have here := List.getElem?_eq_getElem inside
  simp only [removeAt, index_eq here, pure_bind, Cursor.replaceAt, DeadCode.removeAt, here]
  rw [if_neg (by omega), call_ok, pure_bind]
  rfl

/-- Removing from the last place on keeps the places before inside. -/
theorem removeAll_eq {places : List Nat} (ordered : places.Pairwise (· < ·))
    (inside : ∀ i ∈ places, i < code.length) :
    places.foldrM (removeAt v.annotated) code = pure (places.foldr (DeadCode.removeAt v) code) ∧
      ∀ i < code.length, (∀ place ∈ places, i < place) →
        i < (places.foldr (DeadCode.removeAt v) code).length := by
  induction places with
  | nil => exact ⟨rfl, fun i below _ => below⟩
  | cons place places ih =>
    obtain ⟨least, ordered⟩ := List.pairwise_cons.1 ordered
    obtain ⟨here, later⟩ := List.forall_mem_cons.1 inside
    obtain ⟨removed, kept⟩ := ih ordered later
    have still := kept place here least
    refine ⟨?_, fun i below before => ?_⟩
    · rw [List.foldrM_cons, removed, pure_bind, List.foldr_cons, removeAt_eq still]
    · have first := before place (List.mem_cons_self ..)
      rw [List.foldr_cons, DeadCode.length_removeAt still]
      omega

/-- Removes all dead instructions, the last one first. -/
def removeDead (annotated : Bool) (f : Facts) (b : Block) (code : List Instr) :
    Attempt (Option (List Instr)) := do
  let places ← deadPlaces f { b with code }
  if places.isEmpty then return none
  else return some (← places.foldrM (removeAt annotated) code)

theorem removeDead_eq (known : b.id < f.live.exit.length) (annotated : Bool) (code : List Instr) :
    removeDead annotated f b code = pure (DeadCode.step (f.view annotated b) code) := by
  have found : deadPlaces f { b with code } =
      pure (DeadCode.deadFrom (f.view annotated b) 0 code) :=
    deadPlaces_eq (b := { b with code }) known annotated
  obtain ⟨ordered, bounds⟩ := DeadCode.pairwise_deadFrom (f.view annotated b) 0 code
  have removed := (removeAll_eq (v := f.view annotated b) ordered fun i member => by
    simpa using (bounds i member).2).1
  have sameNotes : (f.view annotated b).annotated = annotated := rfl
  rw [sameNotes] at removed
  rw [removeDead, found, pure_bind, removed, pure_bind, DeadCode.step]
  cases DeadCode.deadFrom (f.view annotated b) 0 code <;> rfl

/-- Removes dead instructions until there are none. -/
def deadCode (annotated : Bool) (f : Facts) (b : Block) (code : List Instr) :
    Attempt (List Instr × Bool) :=
  loop (fun (code, changed) => do
    match ← removeDead annotated f b code with
    | some code => return .inl (code, true)
    | none => return .inr (code, changed)) (code, false)

/-- Nothing goes wrong when dead code is eliminated. -/
theorem deadCode_eq (known : b.id < f.live.exit.length) (annotated : Bool) (code : List Instr) :
    deadCode annotated f b code = pure (DeadCode.run (f.view annotated b) code,
      (DeadCode.step (f.view annotated b) code).isSome) := by
  refine loop_exhaust (DeadCode.step (f.view annotated b)) (fun code changed => (code, changed))
    (fun code changed => (code, changed)) (fun code changed idle => loop_done ?_)
    (fun code code' changed stepped => loop_next ?_) (DeadCode.step_run (f.view annotated b) code)
  · simp only [removeDead_eq known, pure_bind, idle]
  · simp only [removeDead_eq known, pure_bind, stepped]

end Attempt

end MipsFlow
