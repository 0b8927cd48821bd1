import Mathlib.Data.List.Infix
import MipsFlow.Proofs.CommonSubexpressions
import MipsFlow.Proofs.DeadCodePass
import MipsFlow.Proofs.Descent
import MipsFlow.Proofs.JumpSimplification
import MipsFlow.Proofs.PropagationPass
import MipsFlow.Proofs.RedundancyPass

/-!
# Passes make code that descends from what they are given

One lemma for each pass: `Redundancy.run_descends`, `Sharing.run_descends`, `DeadCode.run_descends`,
`Folding.run_descends`, `Propagation.run_descends` and `Jumps.runFrom_descends`. All but the fourth
and the last repeat a step, so that they come down to what one step does.
-/

namespace MipsFlow

variable {annotated : Bool} {n m k : Nat} {a b c a' b' : List Instr} {p q r : Instr}

/-! ## Redundancy elimination -/

namespace Redundancy

variable {v : View} {next : Nat} {c d : Command} {rest : List Instr} {w : Substitution}

/-- The replacement descends from the window. -/
theorem rule_descends {rule : Rule} (isRule : rule ∈ rules) (command : p.command? = some c)
    (applies : rule v next p c rest = some w) :
    Descends v.annotated next w.nextId ((p :: rest).take w.count) w.repl := by
  simp only [rules, List.mem_cons, List.not_mem_nil, or_false] at isRule
  rcases isRule with rfl | rfl | rfl | rfl | rfl | rfl | rfl
  · obtain ⟨a, -, -, repl, nextId⟩ := dropSelfCopy_eq_some applies
    rw [repl, nextId]
    exact .of_sublist next (List.nil_sublist _)
  · obtain ⟨a, b, q, others, d, rfl, rfl, isCommand, -, -, -, -, -, -, count, repl, nextId⟩ :=
      readThroughCopy_eq_some applies
    rw [count, repl, nextId]
    refine .one (p := q) (by simp) (.withCommand isCommand _) fun V admits => ?_
    have inside := admits q (by simp)
    have copy := ((admits p (by simp)).command command).of_copy? (Command.copy?_eq_some.2 rfl)
    refine inside.withCommand ((inside.command isCommand).withArgs fun o member => ?_)
    rcases List.mem_or_eq_of_mem_set member with old | rfl
    · exact (inside.command isCommand).args o old
    · exact copy.2
  · obtain ⟨t, args, a, q, r, others, call, shape, rfl, copies, -, -, -, -, -, -, -, -, count, repl,
      nextId⟩ := computeArgument_eq_some applies
    rw [count, repl, nextId]
    refine .one (p := p) (by simp) (.withCommand command _) fun V admits => ?_
    have inside := admits p (by simp)
    have copy := ((admits q (by simp)).command copies).of_copy? (Command.copy?_eq_some.2 rfl)
    refine inside.withCommand ((inside.command command).withArgs fun o member => ?_)
    rcases List.mem_cons.1 member with rfl | old
    · exact copy.1
    · exact (inside.command command).args o (shape ▸ List.mem_cons_of_mem _ old)
  · obtain ⟨a, b, q, others, -, rfl, -, count, repl, nextId⟩ := dropCopyBack_eq_some applies
    rw [count, repl, nextId]
    exact .of_sublist next (by simp)
  · obtain ⟨store, load, value, offset, base, q, others, d, -, -, -, rfl, -, -, -, count, repl,
      nextId⟩ := dropReload_eq_some applies
    rw [count, repl, nextId]
    exact .of_sublist next (by simp)
  · obtain ⟨a, b, -, args, -, count, outcome⟩ := simplifyShift_eq_some applies
    rw [count]
    rcases outcome with ⟨-, repl, nextId⟩ | ⟨-, repl, nextId⟩ <;> rw [repl, nextId]
    · exact .of_sublist next (List.nil_sublist _)
    · refine .new (.ofCommand next _) fun V admits => ?_
      have old := ((admits p (by simp)).command command).args
      rw [args] at old
      obtain ⟨isDst, isSrc⟩ := List.forall_mem_cons.1 old
      exact .ofCommand (.copy isDst (List.forall_mem_cons.1 isSrc).1) next
  · obtain ⟨a, n, dst, m, q, others, d, -, -, rfl, isCommand, -, args, -, count, repl, nextId,
      -⟩ := foldOffset_eq_some applies
    rw [count, repl, nextId]
    refine .one (p := q) (by simp) (.withCommand isCommand _) fun V admits => ?_
    have inside := admits q (by simp)
    have old := (inside.command isCommand).args
    rw [args] at old
    obtain ⟨isDst, isPlace⟩ := List.forall_mem_cons.1 old
    refine inside.withCommand ((inside.command isCommand).withArgs ?_)
    have isReg : V.reg a := (List.forall_mem_singleton.1 isPlace :)
    exact List.forall_mem_cons.2 ⟨isDst, List.forall_mem_singleton.2 isReg⟩

theorem step_descends {x y : BlockCode} (stepped : step v x = some y) :
    Descends v.annotated x.nextId y.nextId x.code y.code := by
  obtain ⟨before, p, rest, c, rule, w, command, isRule, applies, isCode, rfl, -⟩ :=
    step_eq_some stepped
  rw [isCode]
  exact (rule_descends isRule command applies).splice before ((p :: rest).drop w.count) w.note

theorem run_descends (v : View) (x : BlockCode) :
    Descends v.annotated x.nextId (run v x).nextId x.code (run v x).code :=
  .exhaust (fun _ _ => step_descends) _ x

end Redundancy

/-! ## Common subexpressions -/

namespace Sharing

variable {v : View} {t : Reg} {next : Nat} {positions : List Nat}

/-- The position gets the new identity when a value is shared. -/
def gets (next : Nat) (positions : List Nat) (id i : Nat) : Bool :=
  (positions.idxOf? i).any fun j => id = next + (positions.length - j) || (j = 0 && id = next)

/-- No other position gets the same identity. -/
theorem eq_of_gets {id i k : Nat} (here : gets next positions id i = true)
    (there : gets next positions id k = true) : i = k := by
  obtain ⟨j, isPlace, isId⟩ := (Option.any_eq_true _ _).1 here
  obtain ⟨l, isPlace', isId'⟩ := (Option.any_eq_true _ _).1 there
  obtain ⟨inside, isHere, -⟩ := List.idxOf?_eq_some_iff.1 isPlace
  obtain ⟨inside', isThere, -⟩ := List.idxOf?_eq_some_iff.1 isPlace'
  have same : j = l := by
    simp only [Bool.or_eq_true, Bool.and_eq_true, decide_eq_true_eq] at isId isId'
    omega
  subst same
  exact isHere.symm.trans isThere

theorem id_replaceByCopy (v : View) (t : Reg) (id : Nat) (p : Instr) :
    (replaceByCopy v t id p).id = p.id ∨ (replaceByCopy v t id p).id = id := by
  unfold replaceByCopy
  split
  · exact Or.inr (Instr.id_of_bare (v.bare_succeed p _ _))
  · exact Or.inl rfl

theorem id_redirect (p : Instr) (dst : Reg) : (redirect p dst).id = p.id := by
  unfold redirect
  split <;> rfl

theorem count_hoisted (v : View) (next : Nat) (t : Reg) (positions : List Nat) (id i : Nat)
    (p : Instr) :
    ((hoisted v next t positions (p, i)).map Instr.id).count id ≤
      [p.id].count id + if gets next positions id i then 1 else 0 := by
  cases isPlace : positions.idxOf? i with
  | none => simp [hoisted, gets, isPlace]
  | some j =>
    obtain ⟨inside, -, -⟩ := List.idxOf?_eq_some_iff.1 isPlace
    have copied := id_replaceByCopy v t (next + (positions.length - j)) p
    have computed : (v.noted (redirect (p.clone next) t)
        ("common subexpression hoisted into " ++ t.name)).id = next :=
      (Instr.id_of_bare (v.bare_noted _)).trans (id_redirect _ t)
    simp only [hoisted, gets, isPlace, Option.any_some, Bool.or_eq_true, Bool.and_eq_true,
      decide_eq_true_eq]
    by_cases first : j = 0
    · rw [if_pos first]
      simp only [List.map_cons, List.map_nil, List.count_cons, List.count_nil, computed, beq_iff_eq]
      rcases copied with same | new
      · rw [same]
        split_ifs <;> omega
      · rw [new]
        split_ifs <;> omega
    · rw [if_neg first]
      simp only [List.map_cons, List.map_nil, List.count_cons, List.count_nil, beq_iff_eq]
      rcases copied with same | new
      · rw [same]
        exact Nat.le_add_right _ _
      · rw [new]
        split_ifs <;> omega

theorem count_hoist (v : View) (next : Nat) (t : Reg) (positions : List Nat) (id k : Nat)
    (code : List Instr) :
    (((code.zipIdx k).flatMap (hoisted v next t positions)).map Instr.id).count id ≤
      (code.map Instr.id).count id +
        (List.range' k code.length).countP (gets next positions id) := by
  induction code generalizing k with
  | nil => simp
  | cons p rest ih =>
    have here := count_hoisted v next t positions id k p
    have later := ih (k + 1)
    have split : (p.id :: rest.map Instr.id).count id =
        [p.id].count id + (rest.map Instr.id).count id := by
      rw [← List.singleton_append, List.count_append]
    rw [List.zipIdx_cons, List.flatMap_cons, List.map_append, List.count_append, List.map_cons,
      List.length_cons, List.range'_succ, List.countP_cons]
    omega

/-- The new identities follow each other, and each is given out once. -/
theorem countP_gets_le (next : Nat) (positions : List Nat) (id k n : Nat) :
    (List.range' k n).countP (gets next positions id) ≤
      if next ≤ id ∧ id < next + positions.length + 1 then 1 else 0 := by
  by_cases found : ∃ i, gets next positions id i = true
  · obtain ⟨i, here⟩ := found
    have inRange : next ≤ id ∧ id < next + positions.length + 1 := by
      obtain ⟨j, -, isId⟩ := (Option.any_eq_true _ _).1 here
      simp only [Bool.or_eq_true, Bool.and_eq_true, decide_eq_true_eq] at isId
      omega
    rw [if_pos inRange]
    have only : (List.range' k n).countP (gets next positions id) ≤ (List.range' k n).count i :=
      List.countP_mono_left fun j _ there => beq_iff_eq.2 (eq_of_gets there here)
    exact only.trans (List.nodup_iff_count_le_one.1 List.nodup_range' i)
  · have none : (List.range' k n).countP (gets next positions id) = 0 :=
      List.countP_eq_zero.2 fun i _ here => found ⟨i, here⟩
    rw [none]
    exact Nat.zero_le _

/-- At the positions of a value there are commands with a destination. -/
theorem command_of_mem_occurrences {code : List Instr} (member : positions ∈ occurrences v code)
    {i : Nat} (position : i ∈ positions) :
    ∃ p c dst args, code[i]? = some p ∧ p.command? = some c ∧ c.args = .reg dst :: args := by
  obtain ⟨-, number, numbered⟩ := of_mem_occurrences member
  obtain ⟨p, here, -, c, dst, args, command, isArgs, -⟩ := numbered i position
  exact ⟨p, c, dst, args, here, command, isArgs⟩

/-- What takes the place of an instruction is the instruction, or a command. -/
theorem of_mem_hoisted {p : Instr} {c : Command} {dst : Reg} {args : List Operand} {i : Nat}
    (computes : i ∈ positions → p.command? = some c ∧ c.args = .reg dst :: args)
    {q : Instr} (member : q ∈ hoisted v next t positions (p, i)) :
    (q = p ∨ q.IsNew v.annotated next (next + positions.length + 1)) ∧
      ∀ V : Vocabulary, V.reg t → V.Admits p → V.Admits q := by
  cases isPlace : positions.idxOf? i with
  | none =>
    obtain rfl : q = p := by simpa [hoisted, isPlace] using member
    exact ⟨Or.inl rfl, fun _ _ admits => admits⟩
  | some j =>
    obtain ⟨inside, isHere, -⟩ := List.idxOf?_eq_some_iff.1 isPlace
    obtain ⟨command, isArgs⟩ := computes (isHere ▸ List.getElem_mem inside)
    have cases : q = v.succeed p (.ofCommand (next + (positions.length - j)) (.copy dst t))
        ("common subexpression: " ++ p.text) ∨
        q = v.noted ((p.clone next).withCommand { c with args := .reg t :: args })
          ("common subexpression hoisted into " ++ t.name) := by
      have same : (p.clone next).command? = some c := command
      simp only [hoisted, isPlace, replaceByCopy, redirect, same, command, Option.map_some, isArgs,
        List.set_cons_zero] at member
      split at member
      · exact (List.mem_cons.1 member).symm.imp List.mem_singleton.1 id
      · exact Or.inl (List.mem_singleton.1 member)
    rcases cases with rfl | rfl
    · generalize isCopy : v.succeed p (.ofCommand (next + (positions.length - j)) (.copy dst t))
        ("common subexpression: " ++ p.text) = copy
      have same := isCopy ▸ v.bare_succeed p _ _
      have isId : copy.id = next + (positions.length - j) := Instr.id_of_bare same
      refine ⟨Or.inr ⟨by omega, by omega, Instr.isCommand_of_bare same rfl, fun silent => ?_⟩,
        fun V isReg admits => .of_bare same (.ofCommand (.copy ?_ isReg) _)⟩
      · rw [← isCopy, v.notes_succeed _ _ _ silent]
        rfl
      · exact (admits.command command).args (.reg dst) (isArgs ▸ List.mem_cons_self ..)
    · generalize isComputation :
        v.noted ((p.clone next).withCommand { c with args := .reg t :: args })
        ("common subexpression hoisted into " ++ t.name) = computation
      have same := isComputation ▸ v.bare_noted _
      have isId : computation.id = next := Instr.id_of_bare same
      refine ⟨Or.inr ⟨by omega, by omega, Instr.isCommand_of_bare same rfl, fun silent => ?_⟩,
        fun V isReg admits => .of_bare same ⟨?_, admits.comment⟩⟩
      · rw [← isComputation, v.notes_noted _ silent]
        rfl
      · have old := admits.command command
        refine old.withArgs (List.forall_mem_cons.2 ⟨isReg, fun o member => ?_⟩)
        exact old.args o (isArgs ▸ List.mem_cons_of_mem _ member)

theorem hoist_descends {code : List Instr} (member : positions ∈ occurrences v code)
    (scratch : t ∈ Reg.scratch) : Descends v.annotated next (next + positions.length + 1) code
      (hoist v next t positions code) := by
  rw [hoist_eq]
  have origin : ∀ q ∈ code.zipIdx.flatMap (hoisted v next t positions), ∃ p ∈ code,
      (q = p ∨ q.IsNew v.annotated next (next + positions.length + 1)) ∧
        ∀ V : Vocabulary, V.reg t → V.Admits p → V.Admits q := by
    intro q inside
    obtain ⟨⟨p, i⟩, isHere, isHoisted⟩ := List.mem_flatMap.1 inside
    have here := List.mem_zipIdx_iff_getElem?.1 isHere
    have old : p ∈ code := List.mem_of_getElem? here
    by_cases position : i ∈ positions
    · obtain ⟨p', c, dst, args, here', command, isArgs⟩ :=
        command_of_mem_occurrences member position
      obtain rfl := Option.some.inj (here.symm.trans here')
      exact ⟨p, old, of_mem_hoisted (fun _ => ⟨command, isArgs⟩) isHoisted⟩
    · have none : positions.idxOf? i = none := List.idxOf?_eq_none_iff.2 position
      obtain rfl : q = p := by simpa [hoisted, none] using isHoisted
      exact ⟨q, old, Or.inl rfl, fun _ _ admits => admits⟩
  refine ⟨by omega, fun q inside => ?_, fun id => ?_, fun V admits q inside => ?_⟩
  · obtain ⟨p, old, rfl | isNew, -⟩ := origin q inside
    · exact Or.inl ⟨q, old, .refl q⟩
    · exact Or.inr isNew
  · have counted := count_hoist v next t positions id 0 code
    have fewer := countP_gets_le next positions id 0 code.length
    omega
  · obtain ⟨p, old, -, admitted⟩ := origin q inside
    exact admitted V (V.scratch t scratch) (admits p old)

theorem step_descends {x y : BlockCode} (stepped : step v x = some y) :
    Descends v.annotated x.nextId y.nextId x.code y.code := by
  obtain ⟨first, others, t, several, member, found, rfl⟩ := step_eq_some stepped
  exact hoist_descends member (of_scratch? found).1

theorem run_descends (v : View) (x : BlockCode) :
    Descends v.annotated x.nextId (run v x).nextId x.code (run v x).code :=
  .exhaust (fun _ _ => step_descends) _ x

end Sharing

/-! ## Dead code elimination -/

namespace DeadCode

variable {v : View} {code : List Instr}

theorem removeAt_descends (n i : Nat) (code : List Instr) :
    Descends v.annotated n n code (removeAt v i code) := by
  unfold removeAt
  split
  · next p here =>
    obtain ⟨inside, rfl⟩ := List.getElem?_eq_some_iff.1 here
    have split : code.take i ++ [code[i]] ++ code.drop (i + 1) = code := by
      rw [List.append_assoc, List.singleton_append, ← List.drop_eq_getElem_cons inside,
        List.take_append_drop]
    have dropped : Descends v.annotated n n [code[i]] [] := .of_sublist n (List.nil_sublist _)
    have edited := dropped.splice (code.take i) (code.drop (i + 1))
      ("dead code removed: " ++ code[i].text)
    rwa [split, List.length_take_of_le inside.le] at edited
  · exact .refl n code

theorem step_descends (n : Nat) {code' : List Instr} (stepped : step v code = some code') :
    Descends v.annotated n n code code' := by
  obtain ⟨-, rfl⟩ := step_eq_some stepped
  clear stepped
  induction deadFrom v 0 code with
  | nil => exact .refl n code
  | cons i dead ih => exact ih.trans (removeAt_descends n i _)

theorem run_descends (v : View) (n : Nat) (code : List Instr) :
    Descends v.annotated n n code (run v code) :=
  exhaust_induction (Descends v.annotated n n) (.refl n)
    (fun stepped further => (step_descends n stepped).trans further) _ code

end DeadCode

/-! ## Constant folding -/

namespace Folding

variable {v : View} {k : Known} {next : Nat} {c : Command}

theorem literalOperands?_eq_some {op : Opcode} {x y z : Reg} {o : Operand}
    (put : literalOperands? k op x y = some (z, o)) :
    (z = x ∨ z = y) ∧ ∃ value, o = .imm value := by
  unfold literalOperands? at put
  split at put
  · split at put
    · cases put
      exact ⟨Or.inl rfl, _, rfl⟩
    · contradiction
  · split at put
    · cases put
      exact ⟨Or.inr rfl, _, rfl⟩
    · contradiction
  · contradiction

theorem simplified?_admits {V : Vocabulary} {op : Opcode} {dst x : Reg} {d : Command}
    (isDst : V.reg dst) (isReg : V.reg x) (simpler : simplified? dst x op = some d) :
    V.Command d := by
  unfold simplified? at simpler
  split at simpler
  all_goals cases simpler
  all_goals first | exact .copy isDst isReg | exact .loadImm isDst 0

/-- A reduced command uses the registers of the command. -/
theorem reduce_admits {V : Vocabulary} (k : Known) (command : V.Command c) :
    (∀ d, (reduce k c).changed = some d → V.Command d) ∧
      ∀ d, (reduce k c).simpler = some d → V.Command d := by
  unfold reduce
  split
  · next op dst x last isOp isArgs =>
    have old := command.args
    rw [isArgs] at old
    obtain ⟨isDst, isReg, isLast⟩ : V.reg dst ∧ V.reg x ∧ V.Operand last := by
      simpa [Vocabulary.Operand] using old
    have admitted : ∀ put : Option (Reg × Operand),
        (∀ z o, put = some (z, o) → V.reg z ∧ V.Operand o) →
        (∀ d, (put.map fun found => { c with args := [.reg dst, .reg found.1, found.2] }) =
          some d → V.Command d) ∧
        ∀ d, (if (put.getD (x, last)).2 = .imm 0 then simplified? dst (put.getD (x, last)).1 op
          else none) = some d → V.Command d := by
      intro put isPut
      refine ⟨fun d changed => ?_, fun d simpler => ?_⟩
      · obtain ⟨⟨z, o⟩, found, rfl⟩ := Option.map_eq_some_iff.1 changed
        obtain ⟨isReg, isOperand⟩ := isPut z o found
        refine command.withArgs (List.forall_mem_cons.2 ⟨isDst, List.forall_mem_cons.2 ⟨isReg, ?_⟩⟩)
        exact List.forall_mem_singleton.2 isOperand
      · have isReg : V.reg (put.getD (x, last)).1 := by
          cases put with
          | none => exact isReg
          | some found => exact (isPut found.1 found.2 rfl).1
        split at simpler
        · exact simplified?_admits isDst isReg simpler
        · contradiction
    cases last with
    | reg y =>
      refine admitted (literalOperands? k op x y) fun z o found => ?_
      obtain ⟨isOld, value, rfl⟩ := literalOperands?_eq_some found
      rcases isOld with rfl | rfl
      · exact ⟨isReg, trivial⟩
      · exact ⟨isLast, trivial⟩
    | imm _ => exact admitted none (by simp)
    | mem _ _ => exact admitted none (by simp)
    | sym _ => exact admitted none (by simp)
  · simp

/-- A folded command takes the place of the instruction, or is put into it. -/
theorem fold_descends (v : View) (k : Known) (next : Nat) (command : p.command? = some c) :
    Descends v.annotated next (fold v k next p c).nextId [p] [(fold v k next p c).instr] := by
  unfold fold
  split
  · next isArgs =>
    refine .succeed v _ fun V admits => .loadImm ?_ _
    exact (admits.command command).args _ (isArgs ▸ List.mem_cons_self ..)
  · split
    · simp only
      split
      · next simpler isReduced =>
        exact .succeed v _ fun V admits =>
          (reduce_admits k (admits.command command)).2 _ (by rw [isReduced])
      · next changed isReduced =>
        refine (Descends.one (List.mem_singleton_self p) (.withCommand command changed)
          fun V admits => ?_).trans (.noted v _)
        have inside := admits p (List.mem_singleton_self p)
        exact inside.withCommand
          ((reduce_admits k (inside.command command)).1 _ (by rw [isReduced]))
      · exact .refl next [p]
    · exact .refl next [p]
  · exact .refl next [p]

theorem runFrom_descends (v : View) (k : Known) (next : Nat) (code : List Instr) :
    Descends v.annotated next (runFrom v k next code).block.nextId code
      (runFrom v k next code).block.code := by
  induction code generalizing k next with
  | nil => exact .refl next []
  | cons p rest ih =>
    unfold runFrom
    split
    · exact .cons (.refl p) (fun _ admits => admits) (ih k next)
    · next c command =>
      have folded := fold_descends v k next command
      simp only
      split
      · exact folded.append (.refl _ rest)
      · next k' _ => exact folded.append (ih k' _)

theorem run_descends (v : View) (x : BlockCode) :
    Descends v.annotated x.nextId (run v x).block.nextId x.code (run v x).block.code :=
  runFrom_descends v _ x.nextId x.code

end Folding

/-! ## Copy propagation -/

namespace Propagation

variable {c : Copy} {note : String}

/-- A command that reads another register uses no other words. -/
theorem renameReads_admits {V : Vocabulary} {d : Command} (command : V.Command d)
    {source target : Reg}
    (isReg : V.reg target) : V.Command (d.renameReads source target) := by
  refine command.withArgs fun o member => ?_
  obtain ⟨⟨old, i⟩, inside, rfl⟩ := List.mem_map.1 member
  have isOld : V.Operand old := command.args old (List.fst_mem_of_mem_zipIdx inside)
  simp only
  split
  · exact isOld.withBase isReg
  · exact isOld

theorem reread_becomes {d : Command} (command : p.command? = some d) :
    p.Becomes annotated (reread annotated c note p) := by
  have renamed : p.Becomes annotated (p.renameReads c.dst c.src) := by
    rw [Instr.renameReads_of_command command]
    exact .withCommand command _
  unfold reread
  split
  · next noted =>
    exact renamed.trans (.of_bare (by simp) (by simpa using (Bool.and_eq_true_iff.1 noted).2))
  · exact renamed

theorem reread_admits {V : Vocabulary} {d : Command} (command : p.command? = some d)
    (isReg : V.reg c.src) (admits : V.Admits p) : V.Admits (reread annotated c note p) := by
  have renamed : V.Admits (p.renameReads c.dst c.src) := by
    rw [Instr.renameReads_of_command command]
    exact admits.withCommand (renameReads_admits (admits.command command) isReg)
  exact renamed.of_bare (bare_reread annotated c note p)

/-- Reading through a copy changes commands only, and uses the source of the copy. -/
theorem Rereads.becomes {k : Nat} (rereads : Rereads annotated c note a b k) :
    List.Forall₂ (Instr.Becomes annotated) a b ∧
      ∀ V : Vocabulary, V.reg c.src → (∀ p ∈ a, V.Admits p) → ∀ q ∈ b, V.Admits q := by
  induction rereads with
  | stop code => exact ⟨List.forall₂_same.2 fun p _ => .refl p, fun _ _ admits => admits⟩
  | @keep p a b k _ ih =>
    refine ⟨.cons (.refl p) ih.1, fun V isReg admits => ?_⟩
    obtain ⟨here, rest⟩ := List.forall_mem_cons.1 admits
    exact List.forall_mem_cons.2 ⟨here, ih.2 V isReg rest⟩
  | @read p d a b k command _ _ ih =>
    refine ⟨.cons (reread_becomes command) ih.1, fun V isReg admits => ?_⟩
    obtain ⟨here, rest⟩ := List.forall_mem_cons.1 admits
    exact List.forall_mem_cons.2 ⟨reread_admits command isReg here, ih.2 V isReg rest⟩

variable {g : Graph} {id : Nat} {block : Block} {code : List Instr}

/-- Reading through a copy in a block, if the source of the copy was in the program at first. -/
theorem Rereads.descends (before : List Instr) {rest code : List Instr} {l : Nat}
    (rereads : Rereads annotated c note rest code l)
    (descends : Descends annotated n m a g.flatten) (here : g.block? id = some block)
    (isCode : block.code = before ++ rest)
    (source : ∀ V : Vocabulary, (∀ p ∈ a, V.Admits p) → V.reg c.src) :
    Descends annotated n m a (g.setCode id (before ++ code)).flatten := by
  obtain ⟨front, back, isWhole, exchanged⟩ := Graph.flatten_split here
  obtain ⟨each, admits⟩ := rereads.becomes
  rw [isWhole, isCode] at descends
  rw [exchanged]
  have same (part : List Instr) : part.Forall₂ (Instr.Becomes annotated) part :=
    List.forall₂_same.2 fun p _ => .refl p
  refine descends.becomes ?_ fun V old => ?_
  · exact List.rel_append (List.rel_append (same front) (List.rel_append (same before) each))
      (same back)
  · have all := descends.admits V old
    simp only [List.forall_mem_append] at all ⊢
    exact ⟨⟨all.1.1, all.1.2.1, admits V (source V old) all.1.2.2⟩, all.2⟩

variable {f : Facts} {s : State}

theorem enter_descends (descends : Descends annotated n m a s.graph.flatten)
    (source : ∀ V : Vocabulary, (∀ p ∈ a, V.Admits p) → V.reg c.src) (start : Nat) (p : Instr)
    (id : Nat) : Descends annotated n m a (enter annotated f start p c s id).graph.flatten := by
  rcases enter_cases annotated f start p c s id with same | ⟨block, note, here, entered⟩
  · rw [same]
    exact descends
  · rw [entered]
    exact (spread_rereads annotated c note block.code).descends [] descends here rfl source

theorem propagate_descends (descends : Descends annotated n m a s.graph.flatten) (id i : Nat) :
    Descends annotated n m a (propagate annotated f id s i).graph.flatten := by
  rw [propagate_eq]
  cases departs : depart? annotated f id s i with
  | none => exact descends
  | some d =>
    obtain ⟨block, here, isHere, makes, isState, -⟩ := depart?_eq_some departs
    have source : ∀ V : Vocabulary, (∀ p ∈ a, V.Admits p) → V.reg d.copy.src := by
      intro V old
      have inside : d.instr ∈ s.graph.flatten :=
        Graph.mem_flatten here (List.mem_of_getElem? isHere)
      have command := (Copy.of?_eq_some makes).1
      exact (((descends.admits V old _ inside).command command).of_copy?
        (Command.copy?_eq_some.2 rfl)).2
    have spread : Descends annotated n m a d.state.graph.flatten := by
      rw [isState]
      refine (spread_rereads annotated d.copy _ _).descends _ descends here ?_ source
      exact (List.take_append_drop _ _).symm
    exact List.foldlRecOn (motive := fun s : State => Descends annotated n m a s.graph.flatten)
      d.onward _ spread fun _ entered next _ => enter_descends entered source id d.instr next

theorem run_descends (annotated : Bool) (f : Facts) (g : Graph) (id n : Nat) :
    Descends annotated n n g.flatten (run annotated f g id).graph.flatten := by
  unfold run
  split
  · exact .refl n _
  · next block _ =>
    exact List.foldlRecOn
      (motive := fun s : State => Descends annotated n n g.flatten s.graph.flatten)
      (List.range block.code.length) _ (.refl n _) fun _ propagated i _ =>
        propagate_descends propagated id i

end Propagation

/-! ## Jumps -/

namespace Jumps

/-- The notes of a jump that was removed, if notes are left. -/
theorem annotate_descends (p : Instr) {messages : List String}
    (silent : annotated = false → messages = []) (n : Nat) :
    Descends annotated n n [p] [p.annotate messages] := by
  cases noted : annotated with
  | true => exact .of_bare n (by simp) rfl
  | false =>
    rw [silent noted]
    exact .refl n [p]

/-- The opposite branch is a new command. -/
theorem branch_descends {c d c' : Command} {target : String} (command : p.command? = some c)
    (jump : q.command? = some d) (isTarget : d.target? = some target)
    (inverts : Inverts target c c') (n : Nat) (reason : String) :
    Descends annotated n (n + 1) [p, q]
      [((p.clone n).withCommand c').annotate (notes annotated [p, q] reason)] := by
  have same := Instr.bare_annotate ((p.clone n).withCommand c') (notes annotated [p, q] reason)
  refine .new ⟨?_, ?_, ?_, fun silent => ?_⟩ fun V admits => ?_
  · exact (Instr.id_of_bare same).ge
  · exact (Instr.id_of_bare same).trans_lt (Nat.lt_succ_self n)
  · exact Instr.isCommand_of_bare same rfl
  · rw [notes, silent]
    rfl
  · have isBranch := admits p (by simp)
    have isJump := (admits q (by simp)).command jump
    have isLast : .sym target ∈ d.args :=
      List.mem_of_getLast? (Command.getLast?_of_target? isTarget)
    obtain ⟨op, op', -, -, rfl⟩ := inverts
    refine Vocabulary.Admits.of_bare same ⟨.ofOpcode op' ?_, isBranch.comment⟩
    refine List.forall_mem_append.2 ⟨fun o member => ?_, List.forall_mem_singleton.2 ?_⟩
    · exact (isBranch.command command).args o (List.mem_of_mem_dropLast member)
    · exact isJump.args _ isLast

theorem runFrom_descends (annotated : Bool) (next : Nat) (pending : List String)
    (code : List Instr) (silent : annotated = false → pending = []) :
    Descends annotated next (runFrom annotated next pending code).nextId code
      (runFrom annotated next pending code).code := by
  induction next, pending, code using runFrom_induction annotated with
  | nil next pending => exact .refl next []
  | inverts next pending p q after c' inverts ih =>
    obtain ⟨_, _, c, d, label, target, isRest, command, jump, isInverse, -, -, isTarget, -⟩ :=
      inverted?_spec inverts
    cases isRest
    rw [runFrom_of_inverts inverts]
    have before := (annotate_descends p silent next).append (.refl next [q])
    exact (before.trans (branch_descends command jump isTarget isInverse next _)).append
      (ih fun _ => rfl)
  | skips next pending p rest noInverse skips ih =>
    rw [runFrom_of_skips noInverse skips]
    refine (Descends.of_sublist next (List.sublist_cons_self p _)).trans (ih fun none => ?_)
    rw [notes, none]
    rfl
  | stays next pending p rest noInverse stays ih =>
    rw [runFrom_of_stays noInverse stays]
    exact (annotate_descends p silent next).append (ih fun _ => rfl)

end Jumps

end MipsFlow
