import MipsFlow.Proofs.Attempts.Redundancy
import MipsFlow.Proofs.PassDescent

/-!
# Sharing values place by place

Common subexpression elimination collects the places of each value, and exchanges what stands at
the places of one of them, the last place first. Until the computation is put before the first of
them all places stay where they are, and at each there is a command with a destination
(`Sharing.command_of_mem_occurrences`).
-/

namespace MipsFlow

namespace Attempt

variable {f : Facts} {b : Block} {v : View} {n : Numbering} {c : Command} {p : Instr} {t : Reg}
variable {code : List Instr} {next : Nat} {places : List Nat}

/-! ## Numbering -/

/-- The command computes a value that can be shared. -/
def isShareable (c : Command) : Attempt Bool := do
  if !c.isArith || !(← isPure c) || c.args.length < 2 then return false
  else
    match ← operand c 0 with
    | .reg dst =>
      let written ← defs c
      if dst.isZero || written.length ≠ 1 then return false
      else if (← index written 0) ≠ dst then return false
      else return !(← readSites c).any (·.index = 0)
    | _ => return false

@[simp] theorem isShareable_eq (c : Command) : isShareable c = pure c.isShareable := by
  unfold isShareable Command.isShareable
  rw [isPure_eq, pure_bind]
  match args : c.args with
  | [] | [_] => simp
  | .imm _ :: y :: more | .sym _ :: y :: more | .mem _ _ :: y :: more => simp [operand, args]
  | .reg dst :: y :: more =>
    have long : ¬ (Operand.reg dst :: y :: more).length < 2 := by simp
    simp only [operand, args, index_first, defs_eq, readSites_eq, pure_bind, long, decide_false,
      Bool.or_false]
    cases c.isArith <;> cases c.isPure <;> cases dst.isZero <;> try simp
    cases c.defs with
    | nil => simp
    | cons r others =>
      cases others with
      | nil => by_cases same : r = dst <;> simp [same]
      | cons => simp

theorem operand_of_isShareable (shareable : c.isShareable = true) :
    ∃ dst y more, c.args = .reg dst :: y :: more := by
  unfold Command.isShareable at shareable
  simp only [Bool.and_eq_true, decide_eq_true_eq] at shareable
  obtain ⟨⟨-, long⟩, isReg⟩ := shareable
  split at isReg
  · next dst more args =>
    match more with
    | [] => simp [args] at long
    | y :: more => exact ⟨dst, y, more, args⟩
  · contradiction

/-- The number of the value that a shareable command computes. -/
def valueOf (n : Numbering) (c : Command) : Attempt (Option Nat × Numbering) := do
  let args ← slice c.args 1 c.args.length
  match c.op?, n.ofOperands args with
  | some op, (some numbers, n) =>
    let (number, n) := n.ofKey (.result op (if c.has .commutes then numbers.mergeSort else numbers))
    return (some number, n)
  | _, (_, n) => return (none, n)

theorem valueOf_eq (nonempty : 1 ≤ c.args.length) : valueOf n c = pure (n.ofCommand c) := by
  unfold valueOf Numbering.ofCommand
  rw [slice_eq nonempty (Nat.le_refl _), List.take_length, pure_bind]
  obtain ⟨numbers, m⟩ := n.ofOperands (c.args.drop 1)
  cases c.op? <;> cases numbers <;> rfl

/-- The first operand of an instruction. -/
def destination (p : Instr) : Attempt Operand := index (p.command?.elim [] Command.args) 0

theorem destination_eq {o : Operand} {args : List Operand} (command : p.command? = some c)
    (isArgs : c.args = o :: args) : destination p = pure o := by
  rw [destination, command, Option.elim_some, isArgs, index_first]

/-- Follows an instruction, which may compute a value that can be shared. -/
def follow (n : Numbering) (p : Instr) : Attempt (Option Nat × Numbering) := do
  match p.command? with
  | none => return (none, n)
  | some c =>
    let (number, n) ← if ← isShareable c then valueOf n c else pure (none, n)
    let n := n.forget (← clobbers c)
    match number with
    | some number =>
      match ← operand c 0 with
      | .reg dst => return (some number, n.setReg dst number)
      | _ => return (none, n)
    | none =>
      match ← copy? c with
      | some (dst, src) =>
        if dst.isZero then return (none, n)
        else
          let (held, n) := n.ofReg src
          return (none, n.setReg dst held)
      | none => return (none, n)

@[simp] theorem follow_eq (n : Numbering) (p : Instr) : follow n p = pure (n.follow p) := by
  unfold follow Numbering.follow
  cases p.command? with
  | none => rfl
  | some c =>
    simp only [isShareable_eq, clobbers_eq, copy?_eq, pure_bind]
    cases shareable : c.isShareable with
    | false =>
      simp only [Bool.false_eq_true, if_false]
      match c.args, c.copy? with
      | [], none | _ :: _, none => rfl
      | [], some pair | _ :: _, some pair => exact (apply_ite pure _ _ _).symm
    | true =>
      obtain ⟨dst, y, more, args⟩ := operand_of_isShareable shareable
      simp only [if_true, valueOf_eq (n := n) (show 1 ≤ c.args.length by simp [args]), pure_bind,
        operand, args, index_first]
      obtain ⟨number, m⟩ := n.ofCommand c
      cases number with
      | some number => rfl
      | none =>
        cases c.copy? with
        | none => rfl
        | some pair => exact (apply_ite pure _ _ _).symm

/-! ## Places of values -/

/-- Collects the place of an instruction if it computes a value into a register that is not
reserved. -/
def collectPlace (reserved : FactSet Reg) (state : Numbering × List (Nat × Nat))
    (place : Instr × Nat) : Attempt (Numbering × List (Nat × Nat)) := do
  let (number, n) ← follow state.1 place.1
  match number with
  | none => return (n, state.2)
  | some number =>
    match ← destination place.1 with
    | .reg dst =>
      if reserved.contains dst then return (n, state.2)
      else return (n, state.2 ++ [(number, place.2)])
    | _ => return (n, state.2)

/-- The places of the commands that compute each shareable value. -/
def occurrences (reserved : FactSet Reg) (code : List Instr) : Attempt (List (List Nat)) := do
  let (_, numbered) ← code.zipIdx.foldlM (collectPlace reserved) (.initial, [])
  return (numbered.map (·.1)).eraseDups.map fun number =>
    (numbered.filter (·.1 = number)).map (·.2)

/-- A number is only given to a command with a destination. -/
theorem command_of_follow {number : Nat} (numbered : (n.follow p).1 = some number) :
    ∃ c dst args, p.command? = some c ∧ c.args = .reg dst :: args := by
  unfold Numbering.follow at numbered
  cases command : p.command? with
  | none => simp [command] at numbered
  | some c =>
    simp only [command] at numbered
    split at numbered
    · next dst args _ isArgs => exact ⟨c, dst, args, rfl, isArgs⟩
    · split at numbered <;> contradiction
    · contradiction

/-- The number and the place of an instruction that computes a value into a register that is not
reserved. -/
def place? (reserved : FactSet Reg) (w : (Instr × Option Nat) × Nat) : Option (Nat × Nat) :=
  match w.1.2, w.1.1.command?.map Command.args with
  | some number, some (.reg dst :: _) => if reserved.contains dst then none else some (number, w.2)
  | _, _ => none

theorem collectPlace_eq (reserved : FactSet Reg) (n : Numbering) (found : List (Nat × Nat))
    (p : Instr) (i : Nat) : collectPlace reserved (n, found) (p, i) =
      pure ((n.follow p).2, found ++ (place? reserved ((p, (n.follow p).1), i)).toList) := by
  simp only [collectPlace, place?, follow_eq, pure_bind]
  cases numbered : (n.follow p).1 with
  | none => simp
  | some number =>
    obtain ⟨c, dst, args, command, isArgs⟩ := command_of_follow numbered
    simp only [destination_eq command isArgs, pure_bind, command, Option.map_some, isArgs]
    split <;> simp

theorem foldlM_collectPlace (reserved : FactSet Reg) (n : Numbering) (found : List (Nat × Nat))
    (code : List Instr) (i : Nat) :
    (code.zipIdx i).foldlM (collectPlace reserved) (n, found) = pure ((n.followAll code).2,
      found ++ ((code.zip (n.followAll code).1).zipIdx i).filterMap (place? reserved)) := by
  induction code generalizing n found i with
  | nil => simp [Numbering.followAll]
  | cons p rest ih =>
    rw [List.zipIdx_cons, List.foldlM_cons, collectPlace_eq, pure_bind, ih]
    simp only [Numbering.followAll, List.zip_cons_cons, List.zipIdx_cons, List.append_assoc]
    congr 3
    rw [List.filterMap_cons]
    cases place? reserved ((p, (n.follow p).1), i) <;> rfl

theorem occurrences_eq (v : View) (code : List Instr) :
    occurrences v.reserved code = pure (Sharing.occurrences v code) := by
  rw [occurrences, foldlM_collectPlace, pure_bind, List.nil_append]
  rfl

/-! ## Free registers -/

/-- Nothing needs the register from before the place `first` on, or writes it up to the place
`last`. -/
def isFree (f : Facts) (b : Block) (first last : Nat) (r : Reg) : Attempt Bool := do
  if f.reserved.contains r then return false
  else if !(← deadFrom f b first r) then return false
  else
    let ins ← (List.range' first (last + 1 - first)).mapM (index b.code)
    let written ← ins.mapM clobbersOf
    return !written.any (·.contains r)

theorem isFree_eq {first last : Nat} (known : b.id < f.live.exit.length) (annotated : Bool)
    (ordered : first ≤ last) (inside : last < b.code.length) (r : Reg) :
    isFree f b first last r = pure (Sharing.isFree (f.view annotated b) b.code first last r) := by
  unfold isFree Sharing.isFree
  rw [deadFrom_eq known annotated, pure_bind, mapM_index (by omega), pure_bind,
    mapM_eq fun p _ => clobbersOf_eq p, pure_bind, List.any_map]
  have reserved : (f.view annotated b).reserved = f.reserved := rfl
  rw [reserved]
  cases f.reserved.contains r <;> cases (f.view annotated b).dead (b.code.drop first) r <;> rfl

/-- The first scratch register that is free. -/
def scratch? (f : Facts) (b : Block) (first last : Nat) : Attempt (Option Reg) :=
  Reg.scratch.findM? (isFree f b first last)

theorem scratch?_eq {first last : Nat} (known : b.id < f.live.exit.length) (annotated : Bool)
    (ordered : first ≤ last) (inside : last < b.code.length) :
    scratch? f b first last =
      pure (Sharing.scratch? (f.view annotated b) b.code first last) :=
  findM?_eq fun r _ => isFree_eq known annotated ordered inside r

/-! ## Hoisting -/

/-- The command with another destination. -/
def setDestination (p : Instr) (t : Reg) : Attempt Instr := do
  match p.command? with
  | some c =>
    let args ← store c.args 0 (.reg t)
    return p.withCommand { c with args }
  | none => throw (.fault (.outOfBounds 0 0))

theorem setDestination_eq {o : Operand} {args : List Operand} (command : p.command? = some c)
    (isArgs : c.args = o :: args) (t : Reg) :
    setDestination p t = pure (Sharing.redirect p t) := by
  have nonempty : 0 < c.args.length := by simp [isArgs]
  simp only [setDestination, Sharing.redirect, command, store_eq nonempty, pure_bind]

/-- The `j`-th place of a value gets a copy of the register that holds the value. -/
def copyAt (v : View) (next : Nat) (t : Reg) (places : List Nat) (code : List Instr) (j : Nat) :
    Attempt (List Instr) := do
  let i ← index places j
  let p ← index code i
  match ← destination p with
  | .reg dst =>
    let copy := Instr.ofCommand (next + (places.length - j)) (.copy dst t)
    exchangeAt code i 1 [v.succeed p copy ("common subexpression: " ++ p.text)]
  | _ => return code

/-- Computes the value at some places once into a register. -/
def hoist (v : View) (next : Nat) (t : Reg) (places : List Nat) (code : List Instr) :
    Attempt (List Instr) := do
  let first ← index places 0
  let p ← index code first
  let value ← setDestination (p.clone next) t
  let code ← (List.range places.length).reverse.foldlM (copyAt v next t places) code
  exchangeAt code first 0 [v.noted value ("common subexpression hoisted into " ++ t.name)]

/-- What stands at a place when the places of the value from the `m`-th on have their copies. -/
def copied (v : View) (next : Nat) (t : Reg) (places : List Nat) (m : Nat) (place : Instr × Nat) :
    Instr :=
  match places.idxOf? place.2 with
  | some j =>
    if m ≤ j then Sharing.replaceByCopy v t (next + (places.length - j)) place.1 else place.1
  | none => place.1

/-- At each place of the value is a command with a destination. -/
def Computing (code : List Instr) (places : List Nat) : Prop :=
  ∀ i ∈ places, ∃ p c dst args, code[i]? = some p ∧ p.command? = some c ∧ c.args = .reg dst :: args

theorem getElem?_copied (v : View) (next : Nat) (t : Reg) (places : List Nat) (m i : Nat) :
    (code.zipIdx.map (copied v next t places m))[i]? =
      code[i]?.map fun p => copied v next t places m (p, i) := by
  simp [List.getElem?_zipIdx, Option.map_map, Function.comp_def]

theorem copyAt_eq (computing : Computing code places) (distinct : places.Nodup) {m : Nat}
    (inside : m < places.length) :
    copyAt v next t places (code.zipIdx.map (copied v next t places (m + 1))) m =
      pure (code.zipIdx.map (copied v next t places m)) := by
  obtain ⟨p, c, dst, args, here, command, isArgs⟩ :=
    computing places[m] (List.getElem_mem inside)
  have isPlace : places.idxOf? places[m] = some m :=
    List.idxOf?_eq_some_iff.2 ⟨inside, rfl, fun j before same => by
      exact absurd ((List.Nodup.getElem_inj_iff distinct).1 same) (by omega)⟩
  have still : (code.zipIdx.map (copied v next t places (m + 1)))[places[m]]? = some p := by
    rw [getElem?_copied, here, Option.map_some, copied, isPlace]
    simp
  have bound : places[m] < (code.zipIdx.map (copied v next t places (m + 1))).length :=
    (List.getElem?_eq_some_iff.1 still).1
  rw [copyAt, index_eq (List.getElem?_eq_getElem inside), pure_bind, index_eq still, pure_bind,
    destination_eq command isArgs, pure_bind]
  simp only [exchangeAt_one bound]
  congr 1
  refine List.ext_getElem? fun i => ?_
  rw [List.getElem?_set, getElem?_copied, getElem?_copied]
  by_cases same : places[m] = i
  · subst same
    simp only [if_true, bound, here, Option.map_some, copied, isPlace, Nat.le_refl,
      Sharing.replaceByCopy, command, isArgs]
  · rw [if_neg same]
    refine Option.map_congr fun q _ => ?_
    unfold copied
    cases isOther : places.idxOf? i with
    | none => rfl
    | some j =>
      obtain ⟨bound', isHere, -⟩ := List.idxOf?_eq_some_iff.1 isOther
      have other : j ≠ m := by
        rintro rfl
        exact same isHere
      have iff : m + 1 ≤ j ↔ m ≤ j := by omega
      simp only [iff]

/-- Going through the places backwards, all of them get their copies. -/
theorem foldlM_copyAt (computing : Computing code places) (distinct : places.Nodup) :
    (List.range places.length).reverse.foldlM (copyAt v next t places) code =
      pure (code.zipIdx.map (copied v next t places 0)) := by
  have untouched : code.zipIdx.map (copied v next t places places.length) = code := by
    refine Eq.trans (List.map_congr_left fun place _ => ?_) (List.zipIdx_map_fst 0 code)
    unfold copied
    cases isPlace : places.idxOf? place.2 with
    | none => rfl
    | some j =>
      obtain ⟨bound, -⟩ := List.idxOf?_eq_some_iff.1 isPlace
      exact if_neg (by omega)
  suffices backwards : ∀ m ≤ places.length,
      (List.range m).reverse.foldlM (copyAt v next t places)
        (code.zipIdx.map (copied v next t places m)) =
        pure (code.zipIdx.map (copied v next t places 0)) by
    have all := backwards places.length (Nat.le_refl _)
    rwa [untouched] at all
  intro m
  induction m with
  | zero => exact fun _ => rfl
  | succ m ih =>
    intro inside
    rw [List.range_succ, List.reverse_append, List.reverse_singleton, List.singleton_append,
      List.foldlM_cons, copyAt_eq computing distinct inside, pure_bind]
    exact ih (by omega)

/-- Away from the first place an instruction stays one instruction. -/
theorem hoisted_later {first : Nat} {others : List Nat} (place : Instr × Nat)
    (later : place.2 ≠ first) : Sharing.hoisted v next t (first :: others) place =
      [copied v next t (first :: others) 0 place] := by
  unfold Sharing.hoisted copied
  cases isPlace : (first :: others).idxOf? place.2 with
  | none => rfl
  | some j =>
    obtain ⟨bound, isHere, -⟩ := List.idxOf?_eq_some_iff.1 isPlace
    have behind : j ≠ 0 := by
      rintro rfl
      exact later isHere.symm
    simp only [if_neg behind, Nat.zero_le, if_true]

theorem flatMap_hoisted_later (v : View) (next : Nat) (t : Reg) {first k : Nat}
    {others : List Nat} {code : List Instr}
    (elsewhere : ∀ i, k ≤ i → i < k + code.length → i ≠ first) :
    (code.zipIdx k).flatMap (Sharing.hoisted v next t (first :: others)) =
      (code.zipIdx k).map (copied v next t (first :: others) 0) := by
  rw [List.map_eq_flatMap]
  refine List.flatMap_congr fun place member => hoisted_later place ?_
  obtain ⟨above, below, -⟩ := List.mem_zipIdx member
  exact elsewhere _ above below

theorem hoist_eq {first : Nat} {others : List Nat} (computing : Computing code (first :: others))
    (distinct : (first :: others).Nodup) (v : View) (next : Nat) (t : Reg) :
    hoist v next t (first :: others) code =
      pure (Sharing.hoist v next t (first :: others) code) := by
  obtain ⟨p, c, dst, args, here, command, isArgs⟩ := computing first (List.mem_cons_self ..)
  obtain ⟨front, back, rfl, rfl⟩ :
      ∃ front back, code = front ++ p :: back ∧ front.length = first := by
    obtain ⟨bound, rfl⟩ := List.getElem?_eq_some_iff.1 here
    refine ⟨code.take first, code.drop (first + 1), ?_, List.length_take_of_le bound.le⟩
    rw [← List.drop_eq_getElem_cons bound, List.take_append_drop]
  have ahead : (front.zipIdx 0).flatMap (Sharing.hoisted v next t (front.length :: others)) =
      (front.zipIdx 0).map (copied v next t (front.length :: others) 0) :=
    flatMap_hoisted_later v next t fun i _ below => by omega
  have behind : (back.zipIdx (front.length + 1)).flatMap
        (Sharing.hoisted v next t (front.length :: others)) =
      (back.zipIdx (front.length + 1)).map (copied v next t (front.length :: others) 0) :=
    flatMap_hoisted_later v next t fun i above _ => by omega
  have isFirst : Sharing.hoisted v next t (front.length :: others) (p, front.length) =
      [v.noted (Sharing.redirect (p.clone next) t) ("common subexpression hoisted into " ++ t.name),
        copied v next t (front.length :: others) 0 (p, front.length)] := by
    simp [Sharing.hoisted, copied, List.idxOf?_cons]
  have command' : (p.clone next).command? = some c := command
  have length : (front.zipIdx.map (copied v next t (front.length :: others) 0)).length =
      front.length := by simp
  rw [hoist, index_first, pure_bind, index_eq here, pure_bind, setDestination_eq command' isArgs,
    pure_bind, foldlM_copyAt computing distinct, pure_bind, exchangeAt, if_pos (by simp),
    Sharing.hoist_eq]
  simp only [List.zipIdx_append, List.zipIdx_cons, List.flatMap_append, List.flatMap_cons,
    Nat.zero_add, ahead, behind, isFirst, List.map_append, List.map_cons, Edit.exchange,
    Nat.add_zero, List.take_left' length, List.drop_left' length, List.append_assoc,
    List.cons_append, List.nil_append]

/-! ## The pass -/

/-- Shares the value at some places, if there are several and a register is free. -/
def share? (annotated : Bool) (f : Facts) (b : Block) (x : BlockCode) (places : List Nat) :
    Attempt (Option BlockCode) := do
  if places.length ≤ 1 then return none
  else
    let first ← index places 0
    let last ← index places (places.length - 1)
    match ← scratch? f { b with code := x.code } first last with
    | none => return none
    | some t =>
      let code ← hoist (f.view annotated b) x.nextId t places x.code
      return some ⟨code, x.nextId + places.length + 1⟩

theorem share?_eq {x : BlockCode} (known : b.id < f.live.exit.length) (annotated : Bool)
    (member : places ∈ Sharing.occurrences (f.view annotated b) x.code) :
    share? annotated f b x places = pure (Sharing.share? (f.view annotated b) x places) := by
  obtain ⟨ordered, -⟩ := Sharing.of_mem_occurrences member
  have computing : Computing x.code places :=
    fun i isPlace => Sharing.command_of_mem_occurrences member isPlace
  unfold share? Sharing.share?
  match places with
  | [] | [_] => simp
  | first :: second :: more =>
    have nonempty : second :: more ≠ [] := List.cons_ne_nil second more
    have several : ¬ (first :: second :: more).length ≤ 1 := by simp
    have isLast : index (first :: second :: more) ((first :: second :: more).length - 1) =
        pure ((second :: more).getLast nonempty) := by
      refine index_eq ?_
      rw [← List.getLast?_eq_getElem?, List.getLast?_cons_cons, List.getLast?_eq_some_getLast]
    have between := (Sharing.le_last nonempty ordered).1.le
    obtain ⟨q, _, _, _, there, -⟩ :=
      computing _ (List.mem_cons_of_mem first (List.getLast_mem nonempty))
    have free := scratch?_eq (b := { b with code := x.code }) known annotated between
      (List.getElem?_eq_some_iff.1 there).1
    have sameView : f.view annotated { b with code := x.code } = f.view annotated b := rfl
    rw [if_neg several, index_first, pure_bind, isLast, pure_bind, free, pure_bind, sameView]
    simp only [hoist_eq computing ordered.nodup, pure_bind]
    cases Sharing.scratch? (f.view annotated b) x.code first ((second :: more).getLast nonempty) <;>
      rfl

/-- Shares the first value that can be shared. -/
def shareFirst (annotated : Bool) (f : Facts) (b : Block) (x : BlockCode) :
    Attempt (Option BlockCode) := do
  (← occurrences f.reserved x.code).findSomeM? (share? annotated f b x)

theorem shareFirst_eq (known : b.id < f.live.exit.length) (annotated : Bool) (x : BlockCode) :
    shareFirst annotated f b x = pure (Sharing.step (f.view annotated b) x) := by
  rw [shareFirst, show f.reserved = (f.view annotated b).reserved from rfl, occurrences_eq,
    pure_bind]
  exact findSomeM?_eq fun places member => share?_eq known annotated member

/-- Shares the values that several commands of a block compute. -/
def sharing (annotated : Bool) (f : Facts) (b : Block) (x : BlockCode) :
    Attempt (BlockCode × Bool) :=
  loop (fun (x, changed) => do
    match ← shareFirst annotated f b x with
    | some x => return .inl (x, true)
    | none => return .inr (x, changed)) (x, false)

/-- Nothing goes wrong when values are shared. -/
theorem sharing_eq (known : b.id < f.live.exit.length) (annotated : Bool) (x : BlockCode) :
    sharing annotated f b x = pure (Sharing.run (f.view annotated b) x,
      (Sharing.step (f.view annotated b) x).isSome) := by
  refine loop_exhaust (Sharing.step (f.view annotated b)) (fun x changed => (x, changed))
    (fun x changed => (x, changed)) (fun x changed idle => loop_done ?_)
    (fun x y changed stepped => loop_next ?_) (Sharing.step_run (f.view annotated b) x)
  · simp only [shareFirst_eq known, pure_bind, idle]
  · simp only [shareFirst_eq known, pure_bind, stepped]

end Attempt

end MipsFlow
