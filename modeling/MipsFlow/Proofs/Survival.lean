import MipsFlow.Proofs.RunDescent

/-!
# What survives the optimizer

An instruction that is under protection may be replaced by another one that stands for it, and some
may be lost, but nothing comes in between and the order stays: the protected instructions of the
new code *inherit* from those of the old one. What is protected, what may stand for it and what may
be lost is a `Ward`. If the single edits of the passes respect a ward, then so does a whole run,
whether it converges or gives up (`Optimizer.run_respects`).

A pass takes an instruction away, or makes one up, only if it has no effect but on registers that
are not reserved; what it does apart from that is up to the rules of redundancy elimination, and
to reading through a copy. So a ward has to say something of these three (`Ward.Respected`). Of the
rules it has to say something only for the exchanges that the run at hand meets with
(`Optimizer.Meets`), so that what may be lost can depend on them.
-/

namespace MipsFlow

/-! ## Inheritance -/

/-- The second list has, in the same order, heirs of the members of the first one. Some of these
may have been lost. -/
inductive Inherits {α : Type} (heir : α → α → Prop) (lost : α → Prop) : List α → List α → Prop
  | nil : Inherits heir lost [] []
  | keep {x y : α} {a b : List α} : heir x y → Inherits heir lost a b →
    Inherits heir lost (x :: a) (y :: b)
  | lose {x : α} {a b : List α} : lost x → Inherits heir lost a b → Inherits heir lost (x :: a) b

namespace Inherits

variable {α : Type} {heir : α → α → Prop} {lost : α → Prop} {a b c a' b' : List α}

theorem of_forall₂ (each : List.Forall₂ heir a b) : Inherits heir lost a b := by
  induction each with
  | nil => exact .nil
  | cons here _ ih => exact .keep here ih

/-- If no member may be lost, each has an heir. -/
theorem forall₂ (inherits : Inherits heir lost a b) (none : ∀ x ∈ a, ¬ lost x) :
    List.Forall₂ heir a b := by
  induction inherits with
  | nil => exact .nil
  | keep here _ ih => exact .cons here (ih (List.forall_mem_cons.1 none).2)
  | lose isLost => exact absurd isLost (none _ (List.mem_cons_self ..))

theorem trans (first : Inherits heir lost a b) (second : Inherits heir lost b c)
    (heirs : ∀ {x y z}, heir x y → heir y z → heir x z)
    (loses : ∀ {x y}, heir x y → lost y → lost x) : Inherits heir lost a c := by
  induction first generalizing c with
  | nil => exact second
  | keep here _ ih =>
    cases second with
    | keep there rest => exact .keep (heirs here there) (ih rest)
    | lose isLost rest => exact .lose (loses here isLost) (ih rest)
  | lose isLost _ ih => exact .lose isLost (ih second)

theorem append (first : Inherits heir lost a b) (second : Inherits heir lost a' b') :
    Inherits heir lost (a ++ a') (b ++ b') := by
  induction first with
  | nil => exact second
  | keep here _ ih => exact .keep here ih
  | lose isLost _ ih => exact .lose isLost ih

/-- Every member is an heir. -/
theorem of_mem (inherits : Inherits heir lost a b) {y : α} (member : y ∈ b) :
    ∃ x ∈ a, heir x y := by
  induction inherits with
  | nil => simp at member
  | keep here _ ih =>
    rcases List.mem_cons.1 member with rfl | later
    · exact ⟨_, List.mem_cons_self .., here⟩
    · obtain ⟨x, inside, isHeir⟩ := ih later
      exact ⟨x, List.mem_cons_of_mem _ inside, isHeir⟩
  | lose _ _ ih =>
    obtain ⟨x, inside, isHeir⟩ := ih member
    exact ⟨x, List.mem_cons_of_mem _ inside, isHeir⟩

end Inherits

/-! ## Effects -/

namespace Command

variable {c : Command}

/-- The command does more than write registers and go somewhere: it stores, leaves the code in
sight, or is not understood. -/
def hasEffect (c : Command) : Bool := c.isStore || c.leavesCode || (c.isForeign && !c.isJump)

theorem hasEffect_of_isPure (pure : c.isPure = true) : c.hasEffect = false := by
  simp only [isPure, Bool.and_eq_true, Bool.not_eq_true'] at pure
  obtain ⟨⟨⟨⟨known, stays⟩, keeps⟩, -⟩, serves⟩ := pure
  have leaves := leavesCode_eq_false stays serves
  simp [hasEffect, isStore, keeps, leaves, known]

theorem hasEffect_of_isJump (jumps : c.isJump = true) (noCall : c.isCall = false) :
    c.hasEffect = false := by
  obtain ⟨op, isOp, isJump⟩ := has_iff.1 jumps
  rw [isCall, has_of_op? isOp] at noCall
  have silent : op.has .store = false ∧ op.has .barrier = false := by
    cases op <;> simp [Opcode.has, Opcode.traits] at isJump noCall ⊢
  simp [hasEffect, isStore, leavesCode, has_of_op? isOp, noCall, silent, jumps]

theorem isCall_of_isPlainJump (plain : c.isPlainJump = true) : c.isCall = false := by
  have isOp := (Bool.and_eq_true_iff.1 plain).1
  simp only [Bool.or_eq_true, decide_eq_true_eq] at isOp
  rcases isOp with isOp | isOp
  all_goals
    rw [isCall, has_of_op? isOp]
    rfl

@[simp] theorem hasEffect_copy (dst src : Reg) : (copy dst src).hasEffect = false := rfl

@[simp] theorem hasEffect_renameReads (a b : Reg) :
    (c.renameReads a b).hasEffect = c.hasEffect := by
  simp only [hasEffect, isForeign, form?_renameReads]
  rfl

end Command

theorem Instr.content_of_command {p : Instr} {c : Command} (command : p.command? = some c) :
    p.content = .command c := by
  unfold command? at command
  split at command
  · next isContent =>
    cases command
    exact isContent
  · contradiction

/-! ## Wards -/

/-- Instructions under protection. -/
structure Ward where
  covers : Instr → Bool
  /-- The second instruction may stand for the first. -/
  Heir : Instr → Instr → Prop
  /-- The instruction may be lost. -/
  Lost : Instr → Prop
  heirs : ∀ {p q r}, Heir p q → Heir q r → Heir p r
  loses : ∀ {p q}, Heir p q → Lost q → Lost p
  /-- Notes do not matter. -/
  bare : ∀ {p q}, q.bare = p.bare → covers q = covers p ∧ (covers p = true → Heir p q)

namespace Ward

/-- The protected instructions of the second piece of code inherit from those of the first. -/
def Keeps (W : Ward) (a b : List Instr) : Prop :=
  Inherits W.Heir W.Lost (a.filter W.covers) (b.filter W.covers)

/-- The single edits keep what the ward covers, if these registers are reserved and no other windows
are met with. -/
structure Respected (W : Ward) (reserved : FactSet Reg) (met : List Instr → List Instr → Prop) :
    Prop where
  /-- What only writes registers that are not reserved is not covered. -/
  idle : ∀ {p c}, p.command? = some c → c.hasEffect = false → (∀ r ∈ c.defs, r ∉ reserved) →
    W.covers p = false
  rule : ∀ {v next p c rest rule w}, v.reserved = reserved → p.command? = some c →
    rule ∈ Redundancy.rules → rule v next p c rest = some w →
    met ((p :: rest).take w.count) w.repl → W.Keeps ((p :: rest).take w.count) w.repl
  reread : ∀ {annotated copy note p d}, copy.dst ∉ reserved → copy.src ∉ reserved →
    p.command? = some d → (d.isForeign = true → copy.dst ∉ d.uses) →
    W.covers (Propagation.reread annotated copy note p) = W.covers p ∧
      (W.covers p = true → W.Heir p (Propagation.reread annotated copy note p))

variable {W : Ward} {a b c a' b' code : List Instr} {p q : Instr}

namespace Keeps

theorem refl (W : Ward) (a : List Instr) : W.Keeps a a :=
  .of_forall₂ (List.forall₂_same.2 fun _ member => (W.bare rfl).2 (List.mem_filter.1 member).2)

theorem trans (first : W.Keeps a b) (second : W.Keeps b c) : W.Keeps a c :=
  Inherits.trans first second W.heirs W.loses

theorem append (first : W.Keeps a b) (second : W.Keeps a' b') : W.Keeps (a ++ a') (b ++ b') := by
  unfold Keeps
  rw [List.filter_append, List.filter_append]
  exact Inherits.append first second

/-- An edit of a part. -/
theorem around (keeps : W.Keeps a b) (before after : List Instr) :
    W.Keeps (before ++ a ++ after) (before ++ b ++ after) :=
  ((refl W before).append keeps).append (refl W after)

/-- Code without anything under protection may be exchanged. -/
theorem of_none (old : ∀ p ∈ a, W.covers p = false) (new : ∀ p ∈ b, W.covers p = false) :
    W.Keeps a b := by
  have none {code : List Instr} (idle : ∀ p ∈ code, W.covers p = false) :
      code.filter W.covers = [] :=
    List.filter_eq_nil_iff.2 fun p member => by simp [idle p member]
  unfold Keeps
  rw [none old, none new]
  exact .nil

/-- An instruction may be exchanged for an heir. -/
theorem of_heir (same : W.covers q = W.covers p) (heir : W.covers p = true → W.Heir p q) :
    W.Keeps [p] [q] := by
  unfold Keeps
  cases covered : W.covers p with
  | true =>
    rw [List.filter_cons_of_pos covered, List.filter_cons_of_pos (same.trans covered)]
    exact .keep (heir covered) .nil
  | false => simpa [same, covered] using Inherits.nil

/-- An instruction may go if it may be lost. -/
theorem of_lost (lost : W.covers p = true → W.Lost p) : W.Keeps [p] [] := by
  unfold Keeps
  cases covered : W.covers p with
  | true =>
    rw [List.filter_cons_of_pos covered]
    exact .lose (lost covered) .nil
  | false => simpa [covered] using Inherits.nil

/-- Notes do not matter. -/
theorem of_bare (same : b.map Instr.bare = a.map Instr.bare) : W.Keeps a b := by
  induction a generalizing b with
  | nil =>
    obtain rfl : b = [] := by simpa using same
    exact refl W []
  | cons p a ih =>
    cases b with
    | nil => simp at same
    | cons q b =>
      obtain ⟨here, later⟩ := List.cons.inj same
      obtain ⟨covers, heir⟩ := W.bare here
      exact (of_heir covers heir).append (ih later)

/-- Exchanging a window, with or without notes. -/
theorem splice (keeps : W.Keeps a b) (annotated : Bool) (before after : List Instr)
    (note : String) :
    W.Keeps (before ++ a ++ after)
      (Edit.splice annotated (before ++ a ++ after) before.length a.length b note) := by
  refine (keeps.around before after).trans (of_bare ?_)
  rw [Edit.bare_splice, Edit.exchange_window]

end Keeps

end Ward

namespace Sharing

variable {v : View} {positions : List Nat} {code : List Instr}

/-- At the positions of a value there are computations of registers that are not reserved. -/
theorem computes_of_mem_occurrences (member : positions ∈ occurrences v code) {i : Nat}
    (position : i ∈ positions) :
    ∃ p op d xs, code[i]? = some p ∧ p.Computes op d xs ∧ d ∉ v.reserved := by
  obtain ⟨-, number, numbered⟩ := of_mem_occurrences member
  obtain ⟨p, here, isNumber, c, dst, args, command, isArgs, free⟩ := numbered i position
  obtain ⟨_, -, looks⟩ := Numbering.followAll_sound
    (S := Machine.semantics fun _ => none) (s := ⟨fun _ => 0, fun _ => 0⟩)
    Numbering.initial_sound code
  obtain ⟨op, d, xs, computes, -⟩ := looks i number p isNumber here
  refine ⟨p, op, d, xs, here, computes, ?_⟩
  cases command.symm.trans computes.command
  cases isArgs
  exact free

end Sharing

namespace Ward

variable {W : Ward} {met : List Instr → List Instr → Prop} {a b c code : List Instr} {p q : Instr}

/-! ## Passes -/

section Passes

variable {v : View} {reserved : FactSet Reg}

/-- An exchange that may be met with. -/
theorem Respected.exchanges (respected : W.Respected v.reserved met) {x y : BlockCode}
    (exchanges : Redundancy.Exchanges v x y a b) (isMet : met a b) : W.Keeps x.code y.code := by
  obtain ⟨before, p, rest, c, rule, w, rfl, rfl, command, isRule, applies, isCode, rfl, -⟩ :=
    exchanges.by_rule
  rw [isCode]
  exact (respected.rule rfl command isRule applies isMet).splice v.annotated before
    ((p :: rest).drop w.count) w.note

/-- A part of the way to the result of redundancy elimination. -/
theorem Respected.leads (respected : W.Respected v.reserved met) {block x y : BlockCode}
    (meets : ∀ window repl, Redundancy.Meets v block window repl → met window repl)
    (before : Redundancy.Leads v block x) (leads : Redundancy.Leads v x y)
    (onward : Redundancy.Leads v y (Redundancy.run v block)) : W.Keeps x.code y.code :=
  Redundancy.leads_related (R := fun x y => W.Keeps x.code y.code) (fun x => .refl W x.code)
    (fun first second => first.trans second)
    (fun exchanges isMet => respected.exchanges exchanges (meets _ _ isMet)) before leads onward

/-- What computes a register that is not reserved is not covered. -/
theorem Respected.computes {op : Opcode} {d : Reg} {xs : List Operand}
    (respected : W.Respected reserved met) (computes : p.Computes op d xs) (free : d ∉ reserved) :
    W.covers p = false := by
  refine respected.idle computes.command
    (Command.hasEffect_of_isPure (Command.isPure_of_computes computes.nonzero computes.computes)) ?_
  rw [Command.defs_of_computes computes.nonzero computes.computes]
  exact List.forall_mem_singleton.2 free

/-- A copy to a register that is not reserved is not covered. -/
theorem Respected.copy {dst src : Reg} (respected : W.Respected reserved met)
    (command : p.command? = some (.copy dst src)) (free : dst ∉ reserved) : W.covers p = false :=
  respected.idle command (Command.hasEffect_copy dst src) (List.forall_mem_singleton.2 free)

/-- What takes the place of a shared computation is a computation and a copy, or only a copy. -/
theorem Respected.hoisted {next i : Nat} {t : Reg} {positions : List Nat}
    (respected : W.Respected v.reserved met) (scratch : t ∈ Reg.scratch) (free : t ∉ v.reserved)
    (computes : i ∈ positions → ∃ op d xs, p.Computes op d xs ∧ d ∉ v.reserved) :
    W.Keeps [p] (Sharing.hoisted v next t positions (p, i)) := by
  cases isPlace : positions.idxOf? i with
  | none =>
    have stays : Sharing.hoisted v next t positions (p, i) = [p] := by
      simp [Sharing.hoisted, isPlace]
    rw [stays]
    exact .refl W [p]
  | some j =>
    obtain ⟨inside, isHere, -⟩ := List.idxOf?_eq_some_iff.1 isPlace
    obtain ⟨op, d, xs, computes, isFree⟩ := computes (isHere ▸ List.getElem_mem inside)
    have copied : W.covers (Sharing.replaceByCopy v t (next + (positions.length - j)) p) = false :=
      respected.copy (Sharing.command?_replaceByCopy computes _) isFree
    have computed : W.covers (v.noted (Sharing.redirect (p.clone next) t)
        ("common subexpression hoisted into " ++ t.name)) = false := by
      refine respected.computes (computes.redirect (nonzero_of_mem_scratch scratch) ?_) free
      rw [View.command?_noted, Sharing.command?_redirect]
      rfl
    refine .of_none (List.forall_mem_singleton.2 (respected.computes computes isFree)) ?_
    simp only [Sharing.hoisted, isPlace]
    split
    · exact List.forall_mem_cons.2 ⟨computed, List.forall_mem_singleton.2 copied⟩
    · exact List.forall_mem_singleton.2 copied

/-- Common subexpression elimination. -/
theorem Respected.sharing (respected : W.Respected v.reserved met) (x : BlockCode) :
    W.Keeps x.code (Sharing.run v x).code := by
  refine exhaust_induction (fun x y : BlockCode => W.Keeps x.code y.code) (fun x => .refl W x.code)
    (fun {x y z} stepped later => Keeps.trans ?_ later) _ x
  obtain ⟨first, others, t, several, member, found, rfl⟩ := Sharing.step_eq_some stepped
  obtain ⟨scratch, free, -⟩ := Sharing.of_scratch? found
  generalize first :: others = positions at member ⊢
  have pieces (k : Nat) (code : List Instr) (computes : ∀ i p, code[i]? = some p →
      k + i ∈ positions → ∃ op d xs, p.Computes op d xs ∧ d ∉ v.reserved) :
      W.Keeps code ((code.zipIdx k).flatMap (Sharing.hoisted v x.nextId t positions)) := by
    induction code generalizing k with
    | nil => exact .refl W []
    | cons p rest ih =>
      rw [List.zipIdx_cons, List.flatMap_cons]
      refine (respected.hoisted scratch free (computes 0 p rfl)).append (ih (k + 1) ?_)
      intro i q here position
      exact computes (i + 1) q here (by rwa [Nat.add_assoc, Nat.add_comm 1] at position)
  refine pieces 0 x.code fun i p here position => ?_
  obtain ⟨q, op, d, xs, here', computes, isFree⟩ :=
    Sharing.computes_of_mem_occurrences member (Nat.zero_add i ▸ position)
  obtain rfl := Option.some.inj (here.symm.trans here')
  exact ⟨op, d, xs, computes, isFree⟩

/-- Dead code elimination. -/
theorem Respected.deadCode (respected : W.Respected v.reserved met) (code : List Instr) :
    W.Keeps code (DeadCode.run v code) := by
  have cleaned (code : List Instr) : W.Keeps code (DeadCode.cleaned v code) := by
    induction code with
    | nil => exact .refl W []
    | cons p rest ih =>
      unfold DeadCode.cleaned
      split
      · next dead =>
        obtain ⟨c, command, pure, unneeded⟩ := DeadCode.of_isDead dead
        have idle : W.covers p = false := by
          refine respected.idle command (Command.hasEffect_of_isPure pure) fun r written => ?_
          have written : r ∈ p.defs := by rwa [Instr.defs, command]
          exact (Liveness.not_mem_liveIn_of_dead (unneeded r written)).1
        exact (Keeps.of_none (List.forall_mem_singleton.2 idle) (List.forall_mem_nil _)).append ih
      · exact (Keeps.refl W [p]).append ih
  exact exhaust_induction W.Keeps (.refl W)
    (fun stepped later => ((cleaned _).trans (.of_bare (DeadCode.bare_step stepped))).trans later)
    _ code

end Passes

end Ward

/-! ## Constant folding -/

namespace Folding

variable {v : View} {k : Known} {c c' : Command}

/-- What is exchanged writes its first operand, and nothing else. -/
theorem Exchange.target (exchange : Exchange k c c') :
    ∃ d rest, c.args = .reg d :: rest ∧ c.defs = [d] := by
  induction exchange with
  | result _ args found => exact ⟨_, _, args, defs_of_result? args found⟩
  | literal takes | swap takes =>
    exact ⟨_, _, rfl, defs_of_mem_reducible (mem_of_takesLiteral takes) ..⟩
  | simplify simpler => exact ⟨_, _, rfl, defs_of_mem_reducible (mem_of_simplified? simpler) ..⟩
  | trans _ _ first _ => exact first

theorem hasEffect_of_mem_reducible {op : Opcode} (member : op ∈ reducible) (d : Reg)
    (x y : Operand) : (Command.ofOpcode op [.reg d, x, y]).hasEffect = false := by
  simp only [reducible, List.mem_cons, List.not_mem_nil, or_false] at member
  rcases member with rfl | rfl | rfl | rfl | rfl | rfl | rfl | rfl | rfl | rfl | rfl <;> rfl

/-- What a command is exchanged for has no effect but on registers. -/
theorem Exchange.silent (exchange : Exchange k c c') : c'.hasEffect = false := by
  induction exchange with
  | result => rfl
  | literal takes | swap takes => exact hasEffect_of_mem_reducible (mem_of_takesLiteral takes) ..
  | simplify simpler => obtain ⟨rfl, -⟩ | ⟨rfl, -⟩ := of_simplified? simpler <;> rfl
  | trans _ _ _ second => exact second

/-- What may not be folded is left as it is. -/
theorem fold_of_not_isFoldable {p : Instr} (unfoldable : isFoldable v c = false) (next : Nat) :
    fold v k next p c = ⟨p, next, false⟩ := by
  simp [fold, unfoldable]

end Folding

namespace Ward

variable {W : Ward} {met : List Instr → List Instr → Prop} {v : View} {reserved : FactSet Reg}
variable {p : Instr}

/-- A command that is folded writes a register that is not reserved, and so does what it is
exchanged for. -/
theorem Respected.fold {c : Command} (respected : W.Respected v.reserved met)
    (command : p.command? = some c) (k : Known) (next : Nat) :
    W.Keeps [p] [(Folding.fold v k next p c).instr] := by
  cases foldable : Folding.isFoldable v c with
  | false =>
    rw [Folding.fold_of_not_isFoldable foldable]
    exact .refl W [p]
  | true =>
    rcases Folding.fold_exchange v k next p c with same | ⟨-, c', command', exchange⟩
    · rw [same]
      exact .refl W [p]
    · obtain ⟨d, rest, args, defs⟩ := exchange.target
      have free : d ∉ v.reserved := by
        have guard := (Bool.and_eq_true_iff.1 foldable).2
        simpa [args, ← FactSet.contains_iff] using guard
      obtain ⟨keeps, remains⟩ := (Folding.silent_of_isFoldable foldable).2
      have known : c.isForeign = false := by
        obtain ⟨form, known, -⟩ := Command.mem_defs.1 (defs ▸ List.mem_singleton_self d)
        exact Command.isForeign_eq_false.2 ⟨form, known⟩
      have silent : c.hasEffect = false := by simp [Command.hasEffect, keeps, remains, known]
      refine .of_none (List.forall_mem_singleton.2 (respected.idle command silent ?_))
        (List.forall_mem_singleton.2 (respected.idle command' exchange.silent ?_))
      · exact defs ▸ List.forall_mem_singleton.2 free
      · exact exchange.lighter.1 ▸ defs ▸ List.forall_mem_singleton.2 free

theorem Respected.foldFrom (respected : W.Respected v.reserved met) (k : Known) (next : Nat)
    (code : List Instr) : W.Keeps code (Folding.runFrom v k next code).block.code := by
  induction code generalizing k next with
  | nil => exact .refl W []
  | cons p rest ih =>
    unfold Folding.runFrom
    split
    · exact (Keeps.refl W [p]).append (ih k next)
    · next c command =>
      have folded := respected.fold command k next
      simp only
      split
      · exact folded.append (.refl W rest)
      · next k' _ => exact folded.append (ih k' _)

/-! ## Copy propagation -/

open Propagation

variable {annotated : Bool} {f : Facts} {g : Graph} {id : Nat} {s : State} {copy : Copy}
variable {note : String} {a b code : List Instr} {n : Nat}

/-- Reading through a copy. -/
theorem Respected.rereads (respected : W.Respected reserved met) (free : copy.dst ∉ reserved)
    (free' : copy.src ∉ reserved) (rereads : Rereads annotated copy note a b n) : W.Keeps a b := by
  induction rereads with
  | stop code => exact .refl W code
  | @keep p _ _ _ _ ih => exact (Keeps.refl W [p]).append ih
  | read command unread _ ih =>
    obtain ⟨covers, heir⟩ := respected.reread free free' command unread
    exact (Keeps.of_heir covers heir).append ih

/-- Code of a block is exchanged. -/
theorem Keeps.setCode {block : Block} (here : g.block? id = some block)
    (keeps : W.Keeps block.code code) : W.Keeps g.flatten (g.setCode id code).flatten := by
  obtain ⟨before, after, isWhole, exchanged⟩ := Graph.flatten_split here
  rw [isWhole, exchanged]
  exact keeps.around before after

theorem Respected.enter (respected : W.Respected reserved met) (free : copy.dst ∉ reserved)
    (free' : copy.src ∉ reserved) (source : Nat) (p : Instr) (id : Nat) :
    W.Keeps s.graph.flatten (enter annotated f source p copy s id).graph.flatten := by
  rcases enter_cases annotated f source p copy s id with same | ⟨block, note, here, entered⟩
  · rw [same]
    exact .refl W _
  · rw [entered]
    exact .setCode here
      (respected.rereads free free' (spread_rereads annotated copy note block.code))

theorem Respected.propagate (respected : W.Respected f.reserved met) (id i : Nat) :
    W.Keeps s.graph.flatten (propagate annotated f id s i).graph.flatten := by
  rw [propagate_eq]
  cases departs : depart? annotated f id s i with
  | none => exact .refl W _
  | some d =>
    obtain ⟨block, here, isHere, makes, isState, -⟩ := depart?_eq_some departs
    obtain ⟨-, -, free, free'⟩ := Copy.of?_eq_some makes
    have spread : W.Keeps s.graph.flatten d.state.graph.flatten := by
      rw [isState]
      refine .setCode here ?_
      have behind := respected.rereads free free' (spread_rereads annotated d.copy
        ("copy propagated: " ++ d.instr.text) (block.code.drop (i + 1)))
      have whole := (Keeps.refl W (block.code.take (i + 1))).append behind
      rwa [List.take_append_drop] at whole
    exact List.foldlRecOn (motive := fun s' : State => W.Keeps s.graph.flatten s'.graph.flatten)
      d.onward _ spread fun _ entered next _ =>
        entered.trans (respected.enter free free' id d.instr next)

/-- Copy propagation. -/
theorem Respected.propagation (respected : W.Respected f.reserved met) (annotated : Bool)
    (g : Graph) (id : Nat) :
    W.Keeps g.flatten (Propagation.run annotated f g id).graph.flatten := by
  unfold Propagation.run
  split
  · exact .refl W _
  · next block _ =>
    exact List.foldlRecOn (motive := fun s : State => W.Keeps g.flatten s.graph.flatten)
      (List.range block.code.length) _ (.refl W _) fun _ propagated i _ =>
        propagated.trans (respected.propagate id i)

/-! ## Jumps -/

/-- Jumps that go write no register and have no effect besides. -/
theorem Respected.jump {c : Command} (respected : W.Respected reserved met)
    (command : p.command? = some c) (jumps : c.isJump = true) (noCall : c.isCall = false) :
    W.covers p = false := by
  refine respected.idle command (Command.hasEffect_of_isJump jumps noCall) ?_
  rw [Command.defs_of_isJump jumps noCall]
  exact List.forall_mem_nil _

/-- The simplification of jumps. -/
theorem Respected.simplifies (respected : W.Respected reserved met)
    (simplifies : Jumps.Simplifies a b) : W.Keeps a b := by
  induction simplifies with
  | nil => exact .refl W []
  | @keep p p' rest rest' same _ ih =>
    have kept : W.Keeps [p] [p'] := .of_bare (by simp [same])
    exact kept.append ih
  | @invert p q p' c d c' label target after after' command jump isNew isInverse _ plainJump
      isTarget _ _ ih =>
    obtain ⟨⟨branches, noCall⟩, branches', noCall'⟩ := isInverse.isBranch
    have window : W.Keeps [p, q] [p'] := by
      refine .of_none (List.forall_mem_cons.2 ⟨?_, List.forall_mem_singleton.2 ?_⟩)
        (List.forall_mem_singleton.2 ?_)
      · exact respected.jump command (Command.isJump_of_isBranch branches).1 noCall
      · exact respected.jump jump (Command.isJump_of_target? isTarget)
          (Command.isCall_of_isPlainJump plainJump)
      · exact respected.jump isNew (Command.isJump_of_isBranch branches').1 noCall'
    exact window.append ih
  | @skip p c label rest rest' command noCall isTarget _ _ ih =>
    have idle : W.covers p = false :=
      respected.jump command (Command.isJump_of_target? isTarget) noCall
    exact (Keeps.of_none (List.forall_mem_singleton.2 idle) (List.forall_mem_nil _)).append ih

theorem Respected.jumps (respected : W.Respected reserved met) (annotated : Bool) (next : Nat)
    (pending : List String) (code : List Instr) :
    W.Keeps code (Jumps.runFrom annotated next pending code).code :=
  respected.simplifies (Jumps.runFrom_simplifies annotated next pending code)

end Ward

/-! ## Runs -/

namespace Workspace

variable {o : Options} {W : Ward} {met : List Instr → List Instr → Prop} {w w' : Workspace}
variable {b : Block} {id : Nat} {pass : Pass} {changed : Bool}

/-- The blocks are at their places, and the facts are up to date as to what is reserved. -/
structure Orderly (o : Options) (w : Workspace) : Prop where
  placed : Graph.Placed w.graph.blocks
  reserved : w.facts.reserved = .ofList o.reserved
  current : w.stale = false

/-- Every pass keeps what is covered, if it exchanges only what may be met with. -/
theorem apply_keeps (respected : W.Respected w.facts.reserved met)
    (meets : ∀ window repl, Optimizer.Moment.Meets o ⟨id, pass, w⟩ window repl → met window repl)
    (placed : Graph.Placed w.graph.blocks) (here : w.graph.block? id = some b)
    (applied : pass.apply o w b = (w', .ok changed)) :
    W.Keeps w.graph.flatten w'.graph.flatten := by
  have place : b.id = id := placed id b here
  let v := w.facts.view o.annotated b
  let block : BlockCode := ⟨b.code, w.nextId⟩
  unfold Pass.apply at applied
  cases pass with
  | redundancy =>
    cases applied
    have meets (window repl : List Instr) (isMet : Redundancy.Meets v block window repl) :
        met window repl := meets window repl ⟨rfl, b, here, isMet⟩
    exact .setCode (place ▸ here)
      (Ward.Respected.leads (v := v) respected meets .refl (Redundancy.leads_run v block) .refl)
  | sharing =>
    cases applied
    exact .setCode (place ▸ here) (Ward.Respected.sharing (v := v) respected block)
  | folding =>
    obtain rfl := (Prod.mk.inj applied).1
    exact .setCode (place ▸ here) (Ward.Respected.foldFrom (v := v) respected _ _ _)
  | propagation =>
    cases applied
    exact respected.propagation o.annotated w.graph b.id
  | deadCode =>
    cases applied
    exact .setCode (place ▸ here) (Ward.Respected.deadCode (v := v) respected b.code)

/-- No pass looks at the facts of another program, or changes what is reserved. -/
theorem facts_of_apply (applied : pass.apply o w b = (w', .ok changed)) : w'.facts = w.facts := by
  cases pass <;> (obtain rfl := (Prod.mk.inj applied).1; rfl)

theorem orderly_lasting (o : Options) : Lasting o (fun _ => True) fun _ w => w.Orderly o where
  current orderly := orderly.current
  congr orderly graph facts current := by
    obtain ⟨placed, reserved, -⟩ := orderly
    exact ⟨graph ▸ placed, facts ▸ reserved, current⟩
  mono orderly _ := orderly
  renew {_ _ w} orderly := by
    have graph : (w.invalidate.refresh o).graph = w.graph := refresh_graph o _
    refine ⟨graph ▸ orderly.placed, ?_, refresh_stale o _⟩
    rw [refresh_facts rfl]
    rfl
  apply {id w w' b pass changed} _ orderly here applied := by
    have graph : (w'.refresh o).graph = w'.graph := refresh_graph o w'
    have progress := apply_progresses orderly.placed here applied
    have after : (w'.refresh o).Orderly o := by
      refine ⟨graph ▸ progress.placed orderly.placed, ?_, refresh_stale o w'⟩
      unfold refresh
      split
      · rfl
      · exact facts_of_apply applied ▸ orderly.reserved
    exact ⟨after, fun _ _ _ => after⟩

end Workspace

namespace Optimizer

variable {o : Options} {W : Ward} {met : List Instr → List Instr → Prop} {limit : Nat}
variable {s s' : State} {program : Program} {changed : Bool}

theorem orderly_workspace (o : Options) (s : State) : ((s.workspace o).refresh o).Orderly o := by
  rw [Workspace.refresh_of_current rfl]
  exact ⟨fun place b here => (Graph.build_regular _).place here, rfl, rfl⟩

/-- The workspace is in order at every moment of a cycle. -/
theorem cycleMoments_orderly (o : Options) (limit : Nat) (s : State) :
    ∀ m ∈ cycleMoments o limit s, m.workspace.Orderly o := fun m member =>
  (moments_hold (Workspace.orderly_lasting o) (orderly_workspace o s) limit _ (fun _ _ => trivial)
    m member).2

/-- Redundancy elimination exchanges this window in the run. -/
def Meets (o : Options) (program : Program) (window repl : List Instr) : Prop :=
  ∃ m ∈ moments o program, m.Meets o window repl

theorem cycle_respects (respected : W.Respected (.ofList o.reserved) met)
    (meets : ∀ m ∈ cycleMoments o limit s, ∀ window repl, m.Meets o window repl → met window repl)
    (cycled : cycle o limit s = .ok (s', changed)) : W.Keeps s.program.code s'.program.code :=
  cycle_related
    (K := fun m => m.workspace.Orderly o ∧ ∀ window repl, m.Meets o window repl → met window repl)
    (.refl W) (fun first second => first.trans second) (fun _ => respected.jumps o.annotated _ [] _)
    (fun ⟨orderly, meets⟩ here applied =>
      Workspace.apply_keeps (orderly.reserved ▸ respected) meets orderly.placed here applied)
    (fun m member => ⟨cycleMoments_orderly o limit s m member, meets m member⟩) cycled

/-- A run keeps what is covered by a ward that the passes respect, and so does each part of it. -/
theorem run_respects {final : State}
    (respected : W.Respected (.ofList o.reserved) (Meets o program))
    (ran : run o program = .ok final) :
    W.Keeps program.code final.program.code ∧ ∀ m ∈ moments o program,
      m.Between o (W.Keeps program.code ·.graph.flatten)
        (W.Keeps ·.graph.flatten final.program.code) := by
  refine moments_related (R := W.Keeps)
    (K := fun m => m.workspace.Orderly o ∧ m ∈ moments o program) (.refl W)
    (fun first second => first.trans second) (fun _ => respected.jumps o.annotated _ [] _)
    (fun ⟨orderly, member⟩ here applied => ?_) .of_bare ?_ ran
  · exact Workspace.apply_keeps (orderly.reserved ▸ respected)
      (fun window repl isMet => ⟨_, member, isMet⟩) orderly.placed here applied
  · exact fun m member => ⟨forall_moments (cycleMoments_orderly o) m member, member⟩

/-- An exchange that a run meets with is made on something that inherits from the program, and the
result inherits from what it makes of it. -/
theorem keeps_around_met {final : State} {window repl : List Instr}
    (respected : W.Respected (.ofList o.reserved) (Meets o program))
    (ran : run o program = .ok final) (isMet : Meets o program window repl) :
    ∃ before after, W.Keeps program.code (before ++ window ++ after) ∧
      W.Keeps (before ++ repl ++ after) final.program.code := by
  obtain ⟨m, member, isPass, b, here, x, y, leads, exchanges, onward⟩ := isMet
  let v := m.workspace.facts.view o.annotated b
  let block : BlockCode := ⟨b.code, m.workspace.nextId⟩
  have orderly : m.workspace.Orderly o := forall_moments (cycleMoments_orderly o) m member
  have respects : W.Respected m.workspace.facts.reserved (Meets o program) :=
    orderly.reserved ▸ respected
  have meets : ∀ window repl, Redundancy.Meets v block window repl → Meets o program window repl :=
    fun window repl isMet => ⟨m, member, isPass, b, here, isMet⟩
  have between := (run_respects respected ran).2 m member
  obtain ⟨w, changed, applied, final⟩ := between.leads b here
  rw [isPass] at applied
  cases applied
  rw [orderly.placed m.id b here] at final
  obtain ⟨first, last, isWhole, exchanged⟩ := Graph.flatten_split here
  obtain ⟨before, p, rest, _, _, w, -, -, -, -, -, isCode, edited, -⟩ := exchanges.by_rule
  have onto : W.Keeps b.code x.code :=
    Ward.Respected.leads (v := v) respects meets .refl leads (.head exchanges.stepped onward)
  have away : W.Keeps y.code (Redundancy.run v block).code :=
    Ward.Respected.leads (v := v) respects meets (leads.tail exchanges.stepped) onward .refl
  refine ⟨first ++ before, (p :: rest).drop w.count ++ last, ?_, ?_⟩
  · have comes := between.comes.trans (isWhole ▸ onto.around first last)
    rw [isCode] at comes
    simpa only [List.append_assoc] using comes
  · have new : W.Keeps (before ++ repl ++ (p :: rest).drop w.count) y.code :=
      .of_bare (by rw [edited, isCode, Edit.bare_splice, Edit.exchange_window])
    have leadsOn := ((new.trans away).around first last).trans (exchanged _ ▸ final)
    simpa only [List.append_assoc] using leadsOn

end Optimizer

end MipsFlow
