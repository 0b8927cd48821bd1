import MipsFlow.Optimizer.Workspace
import MipsFlow.Proofs.PassDescent

/-!
# Passes do not look at identities and notes

Instructions can be given other identities, and lose their notes, without a pass doing anything else
to them: what it makes of the relabelled code is the relabelled result, whether it leaves notes or
not. So notes do not matter, and neither do the numbers that identify instructions. The identities
that a pass gives out follow each other, so a relabelling has to keep those in order that are still
free: `FreshFrom`.

Here this is shown for the passes over a block that need no facts about other blocks, and for jumps:
`Redundancy.run_relabel`, `Sharing.run_relabel`, `Folding.run_relabel`, `DeadCode.run_relabel` and
`Jumps.run_relabel`.
-/

namespace MipsFlow

namespace Instr

/-- The instruction under another identity, and without its notes. -/
def relabel (f : Nat → Nat) (p : Instr) : Instr := { p with id := f p.id, notes := [] }

variable (f : Nat → Nat) (p : Instr)

@[simp] theorem content_relabel : (p.relabel f).content = p.content := rfl

@[simp] theorem id_relabel : (p.relabel f).id = f p.id := rfl

@[simp] theorem notes_relabel : (p.relabel f).notes = [] := rfl

@[simp] theorem command?_relabel : (p.relabel f).command? = p.command? := rfl

@[simp] theorem label?_relabel : (p.relabel f).label? = p.label? := rfl

@[simp] theorem isLabel_relabel : (p.relabel f).isLabel = p.isLabel := rfl

@[simp] theorem isCommand_relabel : (p.relabel f).isCommand = p.isCommand := rfl

@[simp] theorem isCommandWith_relabel (property : Command → Bool) :
    (p.relabel f).isCommandWith property = p.isCommandWith property := rfl

@[simp] theorem isJump_relabel : (p.relabel f).isJump = p.isJump := rfl

@[simp] theorem target?_relabel : (p.relabel f).target? = p.target? := rfl

@[simp] theorem copy?_relabel : (p.relabel f).copy? = p.copy? := rfl

@[simp] theorem defs_relabel : (p.relabel f).defs = p.defs := rfl

@[simp] theorem uses_relabel : (p.relabel f).uses = p.uses := rfl

@[simp] theorem clobbers_relabel : (p.relabel f).clobbers = p.clobbers := rfl

@[simp] theorem readSites_relabel : (p.relabel f).readSites = p.readSites := rfl

@[simp] theorem reads_relabel (r : Reg) : (p.relabel f).reads r = p.reads r := rfl

@[simp] theorem writes_relabel (r : Reg) : (p.relabel f).writes r = p.writes r := rfl

@[simp] theorem mayWrite_relabel (r : Reg) : (p.relabel f).mayWrite r = p.mayWrite r := rfl

@[simp] theorem text_relabel : (p.relabel f).text = p.text := rfl

@[simp] theorem relabel_bare : p.bare.relabel f = p.relabel f := rfl

@[simp] theorem bare_relabel : (p.relabel f).bare = p.relabel f := rfl

/-- Notes are lost when identities are exchanged. -/
theorem map_relabel_of_bare {a b : List Instr} (same : a.map bare = b.map bare) :
    a.map (relabel f) = b.map (relabel f) := by
  have relabelled := congrArg (List.map (relabel f)) same
  rwa [List.map_map, List.map_map] at relabelled

@[simp] theorem relabel_withCommand (c : Command) :
    (p.withCommand c).relabel f = (p.relabel f).withCommand c := rfl

@[simp] theorem relabel_ofCommand (id : Nat) (c : Command) :
    (ofCommand id c).relabel f = ofCommand (f id) c := rfl

@[simp] theorem relabel_clone (id : Nat) :
    (p.clone id).relabel f = (p.relabel f).clone (f id) := rfl

@[simp] theorem relabel_note (message : String) : (p.note message).relabel f = p.relabel f := by
  unfold note
  split <;> rfl

@[simp] theorem relabel_annotate (messages : List String) :
    (p.annotate messages).relabel f = p.relabel f := by
  unfold annotate
  induction messages generalizing p with
  | nil => rfl
  | cons message rest ih => rw [List.foldl_cons, ih, relabel_note]

@[simp] theorem renameReads_relabel (source target : Reg) :
    (p.relabel f).renameReads source target = (p.renameReads source target).relabel f := by
  unfold renameReads
  cases command : p.command? <;> simp [command]

end Instr

theorem relabel_id_eq_bare : Instr.relabel id = Instr.bare := rfl

/-- The identities that are still free stay in order. -/
def FreshFrom (f : Nat → Nat) (next : Nat) : Prop := ∀ n, next ≤ n → f (n + 1) = f n + 1

theorem FreshFrom.add {f : Nat → Nat} {next : Nat} (fresh : FreshFrom f next) (k : Nat) :
    f (next + k) = f next + k := by
  induction k with
  | zero => rfl
  | succ k ih => rw [← Nat.add_assoc, fresh _ (Nat.le_add_right next k), ih, Nat.add_assoc]

theorem FreshFrom.mono {f : Nat → Nat} {next next' : Nat} (fresh : FreshFrom f next)
    (le : next ≤ next') : FreshFrom f next' :=
  fun n later => fresh n (Nat.le_trans le later)

/-- The code under other identities. -/
def BlockCode.relabel (f : Nat → Nat) (b : BlockCode) : BlockCode :=
  ⟨b.code.map (Instr.relabel f), f b.nextId⟩

namespace View

/-- The view of a pass that leaves no notes. -/
def silent (v : View) : View := { v with annotated := false }

variable (f : Nat → Nat) (v : View)

@[simp] theorem reserved_silent : v.silent.reserved = v.reserved := rfl

@[simp] theorem annotated_silent : v.silent.annotated = false := rfl

@[simp] theorem succeed_silent (old new : Instr) (note : String) :
    v.silent.succeed old new note = new := rfl

@[simp] theorem noted_silent (p : Instr) (note : String) : v.silent.noted p note = p := rfl

@[simp] theorem relabel_succeed (old new : Instr) (note : String) :
    (v.succeed old new note).relabel f = new.relabel f := by
  unfold succeed
  split <;> simp

@[simp] theorem relabel_noted (p : Instr) (note : String) :
    (v.noted p note).relabel f = p.relabel f := by
  unfold noted
  split <;> simp

@[simp] theorem deadIn_relabel (unresolved : Bool) (out : FactSet Reg) (r : Reg)
    (rest : List Instr) : Liveness.deadIn unresolved out r (rest.map (Instr.relabel f)) =
      Liveness.deadIn unresolved out r rest := by
  induction rest with
  | nil => rfl
  | cons p rest ih => simp [Liveness.deadIn, Liveness.usesBefore, ih]

@[simp] theorem dead_relabel (rest : List Instr) (r : Reg) :
    v.silent.dead (rest.map (Instr.relabel f)) r = v.dead rest r := by
  unfold dead
  rw [deadIn_relabel]
  rfl

end View

namespace Edit

variable (f : Nat → Nat)

theorem relabel_update {code : List Instr} {id : Nat} {change : Instr → Instr}
    (silent : ∀ p, (change p).relabel f = p.relabel f) :
    (update code id change).map (Instr.relabel f) = code.map (Instr.relabel f) := by
  unfold update
  rw [List.map_map]
  refine List.map_congr_left fun p _ => ?_
  simp only [Function.comp_apply]
  split
  · exact silent p
  · rfl

@[simp] theorem relabel_splice (annotated : Bool) (code : List Instr) (start count : Nat)
    (repl : List Instr) (note : String) :
    (splice annotated code start count repl note).map (Instr.relabel f) =
      splice false (code.map (Instr.relabel f)) start count (repl.map (Instr.relabel f)) note := by
  have exchanged : (exchange code start count repl).map (Instr.relabel f) =
      splice false (code.map (Instr.relabel f)) start count (repl.map (Instr.relabel f)) note := by
    simp [splice, exchange]
  rw [← exchanged, splice]
  split
  · unfold bequeath
    split
    · exact relabel_update f fun p => p.relabel_annotate f _
    · rfl
  · rfl

end Edit

/-- Repeating a step commutes with a map that the step commutes with, on what the steps lead to. -/
theorem exhaust_map {α β : Type} {step : α → Option α} {step' : β → Option β} {T : α → β}
    {I : α → Prop} (commutes : ∀ a, I a → step' (T a) = (step a).map T)
    (stays : ∀ a b, I a → step a = some b → I b) (fuel : Nat) {a : α} (holds : I a) :
    exhaust step' fuel (T a) = T (exhaust step fuel a) := by
  induction fuel generalizing a with
  | zero => rfl
  | succ fuel ih =>
    rw [exhaust, exhaust, commutes a holds]
    cases next : step a with
    | none => rfl
    | some b => exact ih (stays a b holds next)

/-- The first find among the images of what is looked for. -/
theorem findSome?_map {α β γ : Type} (g : α → Option β) (g' : α → Option γ) (T : β → γ)
    {as : List α} (each : ∀ a ∈ as, g' a = (g a).map T) :
    as.findSome? g' = (as.findSome? g).map T := by
  induction as with
  | nil => rfl
  | cons a as ih =>
    obtain ⟨here, later⟩ := List.forall_mem_cons.1 each
    rw [List.findSome?_cons, List.findSome?_cons, here]
    cases g a with
    | none => exact ih later
    | some b => rfl

variable {f : Nat → Nat} {v : View} {next : Nat}

/-! ## Redundancy elimination -/

namespace Redundancy

/-- The substitution under other identities. -/
def Substitution.relabel (f : Nat → Nat) (w : Substitution) : Substitution :=
  { w with repl := w.repl.map (Instr.relabel f), nextId := f w.nextId }

/-- The rule does not look at identities and notes. -/
def Natural (rule : Rule) : Prop :=
  ∀ {f : Nat → Nat} {next : Nat} (v : View) (p : Instr) (c : Command) (rest : List Instr),
    FreshFrom f next →
      rule v.silent (f next) (p.relabel f) c (rest.map (Instr.relabel f)) =
        (rule v next p c rest).map (Substitution.relabel f)

theorem natural_dropSelfCopy : Natural dropSelfCopy := by
  intro f next v p c rest _
  unfold dropSelfCopy
  cases c.copy? with
  | none => rfl
  | some ab => by_cases same : ab.1 = ab.2 <;> simp [same, Substitution.relabel]

theorem natural_readThroughCopy : Natural readThroughCopy := by
  intro f next v p c rest _
  unfold readThroughCopy
  cases c.copy? with
  | none => rfl
  | some ab =>
    cases rest with
    | nil => rfl
    | cons q rest =>
      cases command : q.command? with
      | none => simp [command]
      | some d =>
        simp only [List.map_cons, Instr.command?_relabel, command]
        rw [apply_ite (Option.map _)]
        rfl

theorem natural_computeArgument : Natural computeArgument := by
  intro f next v p c rest _
  unfold computeArgument
  rcases c.args with - | ⟨o, args⟩
  · rfl
  rcases rest with - | ⟨q, - | ⟨r, rest⟩⟩
  · cases o <;> rfl
  · cases o <;> rfl
  cases o with
  | reg t =>
    have dead : ∀ t, v.silent.dead (r.relabel f :: rest.map (Instr.relabel f)) t =
        v.dead (r :: rest) t := fun t => v.dead_relabel f (r :: rest) t
    simp only [List.map_cons, Instr.copy?_relabel, Instr.command?_relabel, dead]
    cases q.copy? with
    | none => rfl
    | some as =>
      cases r.command? with
      | none => rfl
      | some call =>
        rw [apply_ite (Option.map _)]
        rfl
  | imm _ => rfl
  | mem _ _ => rfl
  | sym _ => rfl

theorem natural_dropCopyBack : Natural dropCopyBack := by
  intro f next v p c rest _
  unfold dropCopyBack
  cases c.copy? with
  | none => rfl
  | some ab =>
    cases rest with
    | nil => rfl
    | cons q rest =>
      simp only [List.map_cons, Instr.copy?_relabel]
      rw [apply_ite (Option.map _)]
      rfl

theorem natural_dropReload : Natural dropReload := by
  intro f next v p c rest _
  unfold dropReload
  split
  · next load x offset base q' rest' isLoad args shape =>
    rcases rest with - | ⟨q, rest⟩
    · cases shape
    · obtain ⟨rfl, -⟩ := List.cons.inj shape
      simp only [isLoad, args, Instr.command?_relabel]
      cases q.command? with
      | none => rfl
      | some d =>
        rw [apply_ite (Option.map _)]
        rfl
  · next other =>
    split
    · next load x offset base q rest isLoad args =>
      exact absurd rfl
        (other load x offset base (q.relabel f) (rest.map (Instr.relabel f)) isLoad args)
    · rfl

theorem natural_simplifyShift : Natural simplifyShift := by
  intro f next v p c rest fresh
  unfold simplifyShift
  split
  · split
    · rfl
    · split
      · simp [Substitution.relabel]
      · simp [Substitution.relabel, fresh next (Nat.le_refl next)]
  · rfl

theorem natural_foldOffset : Natural foldOffset := by
  intro f next v p c rest _
  unfold foldOffset
  split
  · next rest' args shape =>
    rcases rest with - | ⟨q, rest⟩
    · cases shape
    · obtain ⟨rfl, rfl⟩ := List.cons.inj shape
      simp only [args, Instr.command?_relabel]
      cases q.command? with
      | none => rfl
      | some d =>
        simp only
        split
        · rw [apply_ite (Option.map _), View.dead_relabel]
          rfl
        · rfl
  · next other =>
    split
    · next a b n q rest args =>
      exact absurd rfl (other a b n (q.relabel f) (rest.map (Instr.relabel f)) args)
    · rfl

theorem natural_of_mem {rule : Rule} (isRule : rule ∈ rules) : Natural rule := by
  simp only [rules, List.mem_cons, List.not_mem_nil, or_false] at isRule
  rcases isRule with rfl | rfl | rfl | rfl | rfl | rfl | rfl
  · exact natural_dropSelfCopy
  · exact natural_readThroughCopy
  · exact natural_computeArgument
  · exact natural_dropCopyBack
  · exact natural_dropReload
  · exact natural_simplifyShift
  · exact natural_foldOffset

theorem substitutionHere?_relabel (v : View) (fresh : FreshFrom f next) (code : List Instr) :
    substitutionHere? v.silent (f next) (code.map (Instr.relabel f)) =
      (substitutionHere? v next code).map (Substitution.relabel f) := by
  cases code with
  | nil => rfl
  | cons p rest =>
    rw [List.map_cons, substitutionHere?, substitutionHere?, Instr.command?_relabel]
    cases command : p.command? with
    | none => rfl
    | some c =>
      simp only [Option.bind_some]
      exact findSome?_map _ _ _ fun rule isRule => natural_of_mem isRule v p c rest fresh

/-- The first place where a rule applies is the same. -/
theorem firstSubstitution?_relabel (v : View) (fresh : FreshFrom f next) (code : List Instr) :
    firstSubstitution? v.silent (f next) (code.map (Instr.relabel f)) =
      (firstSubstitution? v next code).map fun (i, w) => (i, w.relabel f) := by
  induction code with
  | nil => rfl
  | cons p rest ih =>
    have here := substitutionHere?_relabel v fresh (p :: rest)
    rw [List.map_cons] at here ⊢
    rw [firstSubstitution?, firstSubstitution?, here, ih]
    cases substitutionHere? v next (p :: rest) with
    | some w => rfl
    | none =>
      rw [Option.map_none, Option.map_map, Option.map_map]
      rfl

theorem step_relabel (v : View) (x : BlockCode) (fresh : FreshFrom f x.nextId) :
    step v.silent (x.relabel f) = (step v x).map (BlockCode.relabel f) := by
  unfold step BlockCode.relabel
  rw [firstSubstitution?_relabel v fresh, Option.map_map, Option.map_map]
  congr 1
  funext ⟨i, w⟩
  simp [Substitution.relabel]

/-- Redundancy elimination does not look at identities and notes. -/
theorem run_relabel (v : View) (x : BlockCode) (fresh : FreshFrom f x.nextId) :
    run v.silent (x.relabel f) = (run v x).relabel f := by
  have length : (x.relabel f).code.length = x.code.length := List.length_map _
  unfold run
  rw [length]
  exact exhaust_map (step_relabel v)
    (fun _ _ fresh stepped => fresh.mono (step_descends stepped).le)
    _ fresh

end Redundancy

/-! ## Common subexpression elimination -/

namespace Sharing

theorem follow_relabel (n : Numbering) (p : Instr) : n.follow (p.relabel f) = n.follow p := rfl

theorem followAll_relabel (n : Numbering) (code : List Instr) :
    n.followAll (code.map (Instr.relabel f)) = n.followAll code := by
  induction code generalizing n with
  | nil => rfl
  | cons p rest ih =>
    rw [List.map_cons, Numbering.followAll, Numbering.followAll, follow_relabel]
    simp only [ih]

theorem occurrences_relabel (v : View) (code : List Instr) :
    occurrences v.silent (code.map (Instr.relabel f)) = occurrences v code := by
  unfold occurrences
  rw [followAll_relabel, List.zip_map_left, List.zipIdx_map, List.filterMap_map]
  rfl

theorem scratch?_relabel (v : View) (code : List Instr) (first last : Nat) :
    scratch? v.silent (code.map (Instr.relabel f)) first last = scratch? v code first last := by
  unfold scratch?
  congr 1
  funext r
  simp [isFree, ← List.map_drop, ← List.map_take, List.any_map, Function.comp_def]

theorem relabel_redirect (p : Instr) (dst : Reg) :
    redirect (p.relabel f) dst = (redirect p dst).relabel f := by
  unfold redirect
  rw [Instr.command?_relabel]
  cases p.command? <;> rfl

theorem relabel_replaceByCopy (v : View) (t : Reg) (id : Nat) (p : Instr) :
    (replaceByCopy v t id p).relabel f = replaceByCopy v.silent t (f id) (p.relabel f) := by
  unfold replaceByCopy
  rw [Instr.command?_relabel]
  split <;> simp

theorem hoist_relabel (v : View) (fresh : FreshFrom f next) (t : Reg) (places : List Nat)
    (code : List Instr) :
    hoist v.silent (f next) t places (code.map (Instr.relabel f)) =
      (hoist v next t places code).map (Instr.relabel f) := by
  unfold hoist
  rw [List.zipIdx_map, List.flatMap_map, List.map_flatMap]
  refine List.flatMap_congr fun (p, i) _ => ?_
  simp only [Prod.map_apply, id_eq]
  split
  · rfl
  · next j _ =>
    simp only [← fresh.add, ← relabel_replaceByCopy]
    split
    · simp [← Instr.relabel_clone, relabel_redirect]
    · rfl

theorem share?_relabel (v : View) (x : BlockCode) (fresh : FreshFrom f x.nextId)
    (places : List Nat) :
    share? v.silent (x.relabel f) places = (share? v x places).map (BlockCode.relabel f) := by
  unfold share?
  split
  · next first second more =>
    have next : f (x.nextId + (first :: second :: more).length + 1) =
        f x.nextId + (first :: second :: more).length + 1 := by
      rw [fresh _ (Nat.le_add_right ..), fresh.add]
    simp only [BlockCode.relabel, scratch?_relabel, Option.map_map]
    congr 1
    funext t
    simp only [Function.comp_apply, hoist_relabel v fresh, BlockCode.relabel, next]
  · rfl

theorem step_relabel (v : View) (x : BlockCode) (fresh : FreshFrom f x.nextId) :
    step v.silent (x.relabel f) = (step v x).map (BlockCode.relabel f) := by
  have same : occurrences v.silent (x.relabel f).code = occurrences v x.code :=
    occurrences_relabel v x.code
  unfold step
  rw [same]
  exact findSome?_map _ _ _ fun places _ => share?_relabel v x fresh places

/-- Common subexpression elimination does not look at identities and notes. -/
theorem run_relabel (v : View) (x : BlockCode) (fresh : FreshFrom f x.nextId) :
    run v.silent (x.relabel f) = (run v x).relabel f := by
  have length : (x.relabel f).code.length = x.code.length := List.length_map _
  unfold run
  rw [length]
  exact exhaust_map (step_relabel v)
    (fun _ _ fresh stepped => fresh.mono (step_descends stepped).le)
    _ fresh

end Sharing

/-! ## Constant folding -/

namespace Folding

/-- The outcome under other identities. -/
def Outcome.relabel (f : Nat → Nat) (w : Outcome) : Outcome := { w with block := w.block.relabel f }

theorem fold_relabel (v : View) (k : Known) (fresh : FreshFrom f next) (p : Instr) (c : Command) :
    fold v.silent k (f next) (p.relabel f) c =
      ⟨(fold v k next p c).instr.relabel f, f (fold v k next p c).nextId,
        (fold v k next p c).changed⟩ := by
  have one : f (next + 1) = f next + 1 := fresh next (Nat.le_refl next)
  have foldable : isFoldable v.silent c = isFoldable v c := rfl
  unfold fold
  rw [foldable]
  split
  · simp [one]
  · split
    · simp only
      split <;> simp [one]
    · rfl
  · rfl

theorem runFrom_relabel (v : View) (k : Known) (fresh : FreshFrom f next) (code : List Instr) :
    runFrom v.silent k (f next) (code.map (Instr.relabel f)) =
      (runFrom v k next code).relabel f := by
  induction code generalizing k next with
  | nil => rfl
  | cons p rest ih =>
    rw [List.map_cons, runFrom, runFrom, Instr.command?_relabel]
    cases command : p.command? with
    | none =>
      simp only [ih k fresh]
      rfl
    | some c =>
      have later : FreshFrom f (fold v k next p c).nextId :=
        fresh.mono (fold_descends v k next command).le
      simp only [fold_relabel v k fresh, Instr.command?_relabel]
      split
      · rfl
      · next k' _ =>
        simp only [ih k' later]
        rfl

/-- Constant folding does not look at identities and notes. -/
theorem run_relabel (v : View) (x : BlockCode) (fresh : FreshFrom f x.nextId) :
    run v.silent (x.relabel f) = (run v x).relabel f :=
  runFrom_relabel v _ fresh x.code

end Folding

/-! ## Dead code elimination -/

namespace DeadCode

theorem isDead_relabel (v : View) (p : Instr) (rest : List Instr) :
    isDead v.silent (p.relabel f) (rest.map (Instr.relabel f)) = isDead v p rest := by
  unfold isDead
  simp only [Instr.isCommandWith_relabel, Instr.defs_relabel]
  congr 2
  funext r
  exact v.dead_relabel f rest r

theorem deadFrom_relabel (v : View) (i : Nat) (code : List Instr) :
    deadFrom v.silent i (code.map (Instr.relabel f)) = deadFrom v i code := by
  induction code generalizing i with
  | nil => rfl
  | cons p rest ih => simp [deadFrom, isDead_relabel, ih]

theorem removeAt_relabel (v : View) (i : Nat) (code : List Instr) :
    removeAt v.silent i (code.map (Instr.relabel f)) =
      (removeAt v i code).map (Instr.relabel f) := by
  unfold removeAt
  rw [List.getElem?_map]
  cases code[i]? <;> simp

theorem step_relabel (v : View) (code : List Instr) :
    step v.silent (code.map (Instr.relabel f)) =
      (step v code).map (List.map (Instr.relabel f)) := by
  unfold step
  rw [deadFrom_relabel]
  split
  · rfl
  · next dead _ =>
    have removed : ∀ dead : List Nat, dead.foldr (removeAt v.silent) (code.map (Instr.relabel f)) =
        (dead.foldr (removeAt v) code).map (Instr.relabel f) := by
      intro dead
      induction dead with
      | nil => rfl
      | cons i dead ih => rw [List.foldr_cons, List.foldr_cons, ih, removeAt_relabel]
    exact congrArg some (removed _)

/-- Dead code elimination does not look at identities and notes. -/
theorem run_relabel (v : View) (code : List Instr) :
    run v.silent (code.map (Instr.relabel f)) = (run v code).map (Instr.relabel f) := by
  have holds : ∀ code : List Instr, True → step v.silent (code.map (Instr.relabel f)) =
      (step v code).map (List.map (Instr.relabel f)) := fun code _ => step_relabel v code
  unfold run
  rw [List.length_map]
  exact exhaust_map holds (fun _ _ _ _ => trivial) _ trivial

end DeadCode

/-! ## Jumps -/

namespace Jumps

/-- The outcome under other identities. -/
def Outcome.relabel (f : Nat → Nat) (w : Outcome) : Outcome :=
  { w with code := w.code.map (Instr.relabel f), nextId := f w.nextId }

theorem inverted?_relabel (p : Instr) (rest : List Instr) :
    inverted? (p.relabel f) (rest.map (Instr.relabel f)) = inverted? p rest := by
  rcases rest with - | ⟨q, - | ⟨after, rest⟩⟩
  · rfl
  · rfl
  · rfl

theorem skipsNothing_relabel (p : Instr) (rest : List Instr) :
    skipsNothing (p.relabel f) (rest.map (Instr.relabel f)) = skipsNothing p rest := by
  have ahead : ∀ label, labelAhead label (rest.map (Instr.relabel f)) = labelAhead label rest := by
    intro label
    unfold labelAhead
    rw [List.takeWhile_map, List.any_map]
    rfl
  simp [skipsNothing, ahead]

/-- Simplifying jumps does not look at identities and notes, nor at the notes that are handed on. -/
theorem runFrom_relabel (annotated : Bool) (fresh : FreshFrom f next) (pending : List String)
    (code : List Instr) : runFrom false (f next) [] (code.map (Instr.relabel f)) =
      (runFrom annotated next pending code).relabel f := by
  have same (p : Instr) (pending : List String) :
      (p.relabel f).annotate [] = (p.annotate pending).relabel f :=
    (p.relabel_annotate f pending).symm
  have inverse (p : Instr) (pending : List String) (rest : List Instr) :
      inverted? ((p.relabel f).annotate []) (rest.map (Instr.relabel f)) =
        inverted? (p.annotate pending) rest := by
    rw [same p pending, inverted?_relabel]
  have skipped (p : Instr) (pending : List String) (rest : List Instr) :
      skipsNothing ((p.relabel f).annotate []) (rest.map (Instr.relabel f)) =
        skipsNothing (p.annotate pending) rest := by
    rw [same p pending, skipsNothing_relabel]
  induction next, pending, code using runFrom_induction annotated with
  | nil => rfl
  | inverts next pending p q after c inverts ih =>
    have tail := ih (fresh.mono (Nat.le_succ next))
    rw [fresh next le_rfl] at tail
    rw [List.map_cons, List.map_cons, runFrom_of_inverts inverts,
      runFrom_of_inverts ((inverse p pending (q :: after)).trans inverts), tail, same p pending]
    simp only [Outcome.relabel, List.map_cons, Instr.relabel_annotate, Instr.relabel_withCommand,
      Instr.relabel_clone]
    rfl
  | skips next pending p rest noInverse skips ih =>
    rw [List.map_cons, runFrom_of_skips noInverse skips, runFrom_of_skips
      ((inverse p pending rest).trans noInverse) ((skipped p pending rest).trans skips)]
    exact congrArg (fun w : Outcome => { w with changed := true }) (ih fresh)
  | stays next pending p rest noInverse stays ih =>
    rw [List.map_cons, runFrom_of_stays noInverse stays, runFrom_of_stays
      ((inverse p pending rest).trans noInverse) ((skipped p pending rest).trans stays),
      ih fresh, same p pending]
    rfl

/-- Simplifying jumps does not look at identities and notes. -/
theorem run_relabel (annotated : Bool) (fresh : FreshFrom f next) (code : List Instr) :
    run false (f next) (code.map (Instr.relabel f)) = (run annotated next code).relabel f :=
  runFrom_relabel annotated fresh [] code

end Jumps

end MipsFlow
