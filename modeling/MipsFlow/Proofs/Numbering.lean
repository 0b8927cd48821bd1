import MipsFlow.Optimizer.Numbering
import MipsFlow.Proofs.Semantics

/-!
# What numbers mean

A *valuation* gives every number what an operation sees of a value with that number. A numbering is
sound for a valuation in a state if the values that it recognises look like their numbers, and the
registers hold them (`Numbering.Sound`). New numbers extend the valuation and change nothing about
the old ones (`Numbering.Grows`), so commands with the same number compute the same value.

Little is asked of a meaning for that: it may do with a command what it likes, and not the same
every time, as long as the command keeps the registers that it does not clobber, an operation is
applied, and a copy is made (`Arithmetic.Steps`). For runs under such a meaning there is
`followAll_runs`, and for every semantics that keeps to the table `followAll_sound`.
-/

namespace MipsFlow

variable {V M : Type}

/-- A command whose value can be shared has an opcode that computes by the table. -/
theorem Command.computes_of_isShareable {c : Command} (shareable : c.isShareable = true) :
    ∃ op d xs, c = .ofOpcode op (.reg d :: xs) ∧ d.isZero = false ∧ op.Computes xs.length := by
  unfold isShareable at shareable
  split at shareable
  swap
  · simp at shareable
  next d xs args =>
  simp only [isArith, isPure, Bool.and_eq_true, Bool.not_eq_true', decide_eq_true_eq] at shareable
  obtain ⟨⟨⟨arith, pure⟩, -⟩, ⟨nonzero, alone⟩, unread⟩ := shareable
  obtain ⟨op, isOp, isArith⟩ := has_iff.1 arith
  obtain ⟨mnemonic, _⟩ := c
  obtain rfl : mnemonic = .known op := op?_eq_some.1 isOp
  subst args
  obtain ⟨form, known⟩ := isForeign_eq_false.1 pure.1.1.1.1
  have entry : op.family.form? (xs.length + 1) = some form :=
    (form?_ofOpcode nonzero).symm.trans known
  have safe : op.has .trap = false := by rw [← has_of_op? isOp]; exact pure.1.2
  refine ⟨op, d, xs, rfl, nonzero, isArith, safe, ?_⟩
  rcases Opcode.form_of_arith entry isArith with ⟨two, rfl⟩ | ⟨three, rfl⟩ | rfl | rfl
  · exact Or.inl ⟨Nat.succ.inj two, two ▸ entry⟩
  · exact Or.inr ⟨Nat.succ.inj three, three ▸ entry⟩
  · -- what accumulates reads its first operand
    have read : (⟨0, d⟩ : ReadSite) ∈ readSites ⟨.known op, .reg d :: xs⟩ :=
      mem_readSites.2 ⟨.reg d, rfl, by rw [known]; rfl⟩
    rw [List.any_eq_false] at unread
    exact absurd (decide_eq_true rfl) (unread _ read)
  · -- the multiplier has two results
    have two : defs ⟨.known op, .reg d :: xs⟩ = [.hi, .lo] := by
      simp only [defs, known]
      rfl
    simp [two] at alone

theorem Command.copy?_of_computes {op : Opcode} {args : List Operand} {n : Nat}
    (computes : op.Computes n) : (Command.ofOpcode op args).copy? = none := by
  rw [Option.eq_none_iff_forall_ne_some]
  rintro ⟨dst, src⟩ copies
  obtain ⟨⟨⟩, -⟩ := Command.mk.inj (copy?_eq_some.1 copies)
  exact absurd computes.arith (by decide)

/-- The instruction computes the register from values, and does nothing else. -/
structure Instr.Computes (p : Instr) (op : Opcode) (d : Reg) (xs : List Operand) : Prop where
  command : p.command? = some (.ofOpcode op (.reg d :: xs))
  nonzero : d.isZero = false
  computes : op.Computes xs.length
  values : ∀ x ∈ xs, x.isValue = true

theorem Instr.Computes.defs {p : Instr} {op : Opcode} {d : Reg} {xs : List Operand}
    (computes : p.Computes op d xs) : p.defs = [d] ∧ p.clobbers = [d] := by
  obtain ⟨command, nonzero, computes, -⟩ := computes
  obtain ⟨-, -, -, clobbers⟩ :=
    Command.form_of_isPure (Command.isPure_of_computes nonzero computes)
  rw [Instr.defs, Instr.clobbers, command, Option.elim_some, Option.elim_some, clobbers]
  exact ⟨Command.defs_of_computes nonzero computes, Command.defs_of_computes nonzero computes⟩

/-! ## Operations, and runs that apply them -/

/-- What the operations make of values. -/
structure Arithmetic (V : Type) where
  /-- The value of the zero register. -/
  zero : V
  /-- What an operation makes of its operands. -/
  result : Opcode → List (Seen V) → V
  commutes : ∀ {op : Opcode} {xs ys : List (Seen V)}, op.has .commutes = true → xs.Perm ys →
    result op xs = result op ys

namespace Arithmetic

/-- What an operation computes from its operands in a state. -/
def apply (A : Arithmetic V) (op : Opcode) (xs : List Operand) (s : MachineState V M) : V :=
  A.result op (xs.map (s.sees A.zero))

/-- The second state may be the one behind an instruction that starts in the first. -/
structure Steps (A : Arithmetic V) (p : Instr) (s s' : MachineState V M) : Prop where
  frame : ∀ r, r ∉ p.clobbers → s'.read A.zero r = s.read A.zero r
  computes : ∀ {op : Opcode} {d : Reg} {xs : List Operand}, p.Computes op d xs →
    s'.read A.zero d = A.apply op xs s
  copies : ∀ {d r : Reg}, p.copy? = some (d, r) → d.isZero = false →
    s'.read A.zero d = s.read A.zero r

/-- The states are those of a run of straight-line code: the `i`-th is the one before the `i`-th
instruction. -/
def Runs (A : Arithmetic V) (code : List Instr) (states : Nat → MachineState V M) : Prop :=
  ∀ i p, code[i]? = some p → A.Steps p (states i) (states (i + 1))

variable {A : Arithmetic V} {states : Nat → MachineState V M} {p : Instr} {rest : List Instr}

theorem Runs.head (run : A.Runs (p :: rest) states) : A.Steps p (states 0) (states 1) :=
  run 0 p rfl

theorem Runs.tail (run : A.Runs (p :: rest) states) : A.Runs rest fun i => states (i + 1) :=
  fun i q here => run (i + 1) q here

end Arithmetic

namespace Semantics

/-- What a semantics makes of the operations. -/
def arithmetic (S : Semantics V M) : Arithmetic V := ⟨S.zero, S.result, S.commutes⟩

/-- An instruction does what the table says. -/
theorem steps_execInstr (S : Semantics V M) (p : Instr) (s : MachineState V M) :
    S.arithmetic.Steps p s (S.execInstr p s) := by
  refine ⟨fun r kept => ?_, ?_, ?_⟩
  · rw [MachineState.read, MachineState.read, S.regs_execInstr s kept]
  · intro op d xs computes
    rw [S.execInstr_of_command computes.command,
      S.computes s computes.nonzero computes.computes computes.values]
    exact MachineState.read_set_self computes.nonzero
  · intro d r copy nonzero
    obtain ⟨c, command, copies⟩ := Option.bind_eq_some_iff.1 copy
    obtain rfl := Command.copy?_eq_some.1 copies
    rw [S.execInstr_of_command command, S.copies]
    exact MachineState.read_set_self nonzero

/-- The states of straight-line code are those of a run. -/
theorem runs_execAll (S : Semantics V M) (code : List Instr) (s : MachineState V M) :
    S.arithmetic.Runs code fun i => S.execAll (code.take i) s := by
  intro i p here
  have next : code.take (i + 1) = code.take i ++ [p] := by
    rw [List.take_add_one, here]
    rfl
  simp only [next, S.execAll_append]
  exact S.steps_execInstr p _

end Semantics

namespace ValueKey

/-- What an operation sees of a value, by what it sees of numbered ones. -/
def seen (A : Arithmetic V) (ν : Nat → Seen V) : ValueKey → Seen V
  | .literal n => if n = 0 then .value A.zero else .literal n
  | .symbol text => .symbol text
  | .result op args => .value (A.result op (args.map ν))

/-- The value is made of numbers up to a bound. -/
def Below (bound : Nat) : ValueKey → Prop
  | .result _ args => ∀ m ∈ args, m ≤ bound
  | .literal _ | .symbol _ => True

variable {A : Arithmetic V} {key : ValueKey} {bound : Nat} {ν ν' : Nat → Seen V}

theorem Below.mono {bound' : Nat} (below : key.Below bound) (le : bound ≤ bound') :
    key.Below bound' := by
  cases key with
  | result op args => exact fun m member => (below m member).trans le
  | _ => trivial

/-- What is seen depends on the numbers that the value is made of. -/
theorem seen_congr (below : key.Below bound) (same : ∀ m ≤ bound, ν' m = ν m) :
    key.seen A ν' = key.seen A ν := by
  cases key with
  | result op args =>
    have args : args.map ν' = args.map ν :=
      List.map_congr_left fun m member => same m (below m member)
    simp only [seen, args]
  | _ => rfl

end ValueKey

namespace Numbering

variable {A : Arithmetic V} {n n' n'' : Numbering} {ν ν' ν'' : Nat → Seen V}
variable {s s' : MachineState V M} {r : Reg} {m : Nat}

/-- Numbers stand for values, and registers hold the values of their numbers. -/
structure Sound (A : Arithmetic V) (n : Numbering) (ν : Nat → Seen V) (s : MachineState V M) :
    Prop where
  keys : ∀ key m, (key, m) ∈ n.keys → m ≤ n.last ∧ key.Below n.last ∧ ν m = key.seen A ν
  regs : ∀ r m, (r, m) ∈ n.regs → m ≤ n.last ∧ s.sees A.zero (.reg r) = ν m

/-- The second numbering has the numbers of the first, which stand for the same values. -/
structure Grows (n : Numbering) (ν : Nat → Seen V) (n' : Numbering) (ν' : Nat → Seen V) : Prop where
  last : n.last ≤ n'.last
  same : ∀ m ≤ n.last, ν' m = ν m

theorem Grows.refl : Grows n ν n ν := ⟨Nat.le_refl _, fun _ _ => rfl⟩

theorem Grows.trans (first : Grows n ν n' ν') (second : Grows n' ν' n'' ν'') : Grows n ν n'' ν'' :=
  ⟨first.last.trans second.last,
    fun m old => (second.same m (old.trans first.last)).trans (first.same m old)⟩

theorem initial_sound : initial.Sound A (fun _ => .value A.zero) s := by
  refine ⟨fun key m member => ?_, fun r m member => ?_⟩
  · simp only [initial, List.mem_singleton, Prod.mk.injEq] at member
    obtain ⟨rfl, rfl⟩ := member
    exact ⟨Nat.le_refl _, trivial, rfl⟩
  · simp only [initial, List.mem_singleton, Prod.mk.injEq] at member
    obtain ⟨rfl, rfl⟩ := member
    exact ⟨Nat.le_refl _, rfl⟩

/-! ## New numbers -/

theorem mem_of_lookup {α : Type} [BEq α] [LawfulBEq α] {pairs : List (α × Nat)} {a : α}
    (found : pairs.lookup a = some m) : (a, m) ∈ pairs := by
  obtain ⟨front, back, rfl, -⟩ := List.lookup_eq_some_iff.1 found
  exact List.mem_append_right _ (List.mem_cons_self ..)

/-- A new number may stand for any value. -/
theorem grows_next (x : Seen V) :
    Grows n ν { n with last := n.last + 1 } (Function.update ν (n.last + 1) x) := by
  refine ⟨Nat.le_succ _, fun m old => Function.update_of_ne ?_ ..⟩
  exact (Nat.lt_succ_of_le old).ne

theorem Sound.next (sound : n.Sound A ν s) (x : Seen V) :
    Sound A { n with last := n.last + 1 } (Function.update ν (n.last + 1) x) s := by
  have grows := grows_next (n := n) (ν := ν) x
  refine ⟨fun key m member => ?_, fun r m member => ?_⟩
  · obtain ⟨old, below, looks⟩ := sound.keys key m member
    refine ⟨old.trans grows.last, below.mono grows.last, ?_⟩
    rw [grows.same m old, looks, ValueKey.seen_congr below grows.same]
  · obtain ⟨old, holds⟩ := sound.regs r m member
    exact ⟨old.trans grows.last, by rw [grows.same m old, holds]⟩

/-- Recognising a value. -/
theorem ofKey_sound (sound : n.Sound A ν s) (key : ValueKey) (below : key.Below n.last) :
    ∃ ν', Grows n ν (n.ofKey key).2 ν' ∧ (n.ofKey key).2.Sound A ν' s ∧
      (n.ofKey key).1 ≤ (n.ofKey key).2.last ∧ ν' (n.ofKey key).1 = key.seen A ν := by
  unfold ofKey
  split
  · next m found =>
    obtain ⟨old, -, looks⟩ := sound.keys key m (mem_of_lookup found)
    exact ⟨ν, .refl, sound, old, looks⟩
  · have grows := grows_next (n := n) (ν := ν) (key.seen A ν)
    have next := sound.next (key.seen A ν)
    refine ⟨_, ⟨grows.last, grows.same⟩, ⟨fun other m member => ?_, next.regs⟩, Nat.le_refl _,
      Function.update_self ..⟩
    rcases List.mem_cons.1 member with new | old
    · cases new
      refine ⟨Nat.le_refl _, below.mono grows.last, ?_⟩
      rw [Function.update_self, ValueKey.seen_congr below grows.same]
    · exact next.keys other m old

theorem Sound.setReg (sound : n.Sound A ν s) (old : m ≤ n.last)
    (holds : s.sees A.zero (.reg r) = ν m) : (n.setReg r m).Sound A ν s := by
  refine ⟨sound.keys, fun q k member => ?_⟩
  rcases List.mem_cons.1 member with new | later
  · cases new
    exact ⟨old, holds⟩
  · exact sound.regs q k later

/-- Asking for the number of a register. -/
theorem ofReg_sound (sound : n.Sound A ν s) (r : Reg) :
    ∃ ν', Grows n ν (n.ofReg r).2 ν' ∧ (n.ofReg r).2.Sound A ν' s ∧
      (n.ofReg r).1 ≤ (n.ofReg r).2.last ∧ ν' (n.ofReg r).1 = s.sees A.zero (.reg r) := by
  unfold ofReg
  split
  · next m found =>
    obtain ⟨old, holds⟩ := sound.regs r m (mem_of_lookup found)
    exact ⟨ν, .refl, sound, old, holds.symm⟩
  · have grows := grows_next (n := n) (ν := ν) (s.sees A.zero (.reg r))
    have looks := Function.update_self (n.last + 1) (s.sees A.zero (.reg r)) ν
    refine ⟨_, ⟨grows.last, grows.same⟩, ?_, Nat.le_refl _, looks⟩
    exact (sound.next _).setReg (Nat.le_refl _) looks.symm

/-- Asking for the number of an operand, which memory does not have. -/
theorem ofOperand_sound (sound : n.Sound A ν s) (x : Operand) :
    ∃ ν', Grows n ν (n.ofOperand x).2 ν' ∧ (n.ofOperand x).2.Sound A ν' s ∧
      ∀ m, (n.ofOperand x).1 = some m →
        x.isValue = true ∧ m ≤ (n.ofOperand x).2.last ∧ ν' m = s.sees A.zero x := by
  cases x with
  | reg r =>
    obtain ⟨ν', grows, sound', old, looks⟩ := ofReg_sound sound r
    refine ⟨ν', grows, sound', ?_⟩
    rintro _ ⟨⟩
    exact ⟨rfl, old, looks⟩
  | imm value =>
    obtain ⟨ν', grows, sound', old, looks⟩ := ofKey_sound sound (.literal value) trivial
    refine ⟨ν', grows, sound', ?_⟩
    rintro _ ⟨⟩
    exact ⟨rfl, old, looks⟩
  | sym text =>
    obtain ⟨ν', grows, sound', old, looks⟩ := ofKey_sound sound (.symbol text) trivial
    refine ⟨ν', grows, sound', ?_⟩
    rintro _ ⟨⟩
    exact ⟨rfl, old, looks⟩
  | mem offset base => exact ⟨ν, .refl, sound, fun m numbered => nomatch numbered⟩

/-- Asking for the numbers of several operands. -/
theorem ofOperands_sound (sound : n.Sound A ν s) (xs : List Operand) :
    ∃ ν', Grows n ν (n.ofOperands xs).2 ν' ∧ (n.ofOperands xs).2.Sound A ν' s ∧
      ∀ ms, (n.ofOperands xs).1 = some ms → (∀ x ∈ xs, x.isValue = true) ∧
        (∀ m ∈ ms, m ≤ (n.ofOperands xs).2.last) ∧ ms.map ν' = xs.map (s.sees A.zero) := by
  induction xs generalizing n ν with
  | nil =>
    refine ⟨ν, .refl, sound, ?_⟩
    rintro _ ⟨⟩
    exact ⟨by simp, by simp, rfl⟩
  | cons x rest ih =>
    obtain ⟨ν₁, grows₁, sound₁, looks₁⟩ := ofOperand_sound sound x
    unfold ofOperands
    split
    · next n₁ numbered =>
      simp only [numbered] at grows₁ sound₁
      exact ⟨ν₁, grows₁, sound₁, fun ms none => nomatch none⟩
    · next m n₁ numbered =>
      simp only [numbered, Option.some.injEq, forall_eq'] at grows₁ sound₁ looks₁
      obtain ⟨value, old, looks⟩ := looks₁
      obtain ⟨ν', grows, sound', looksRest⟩ := ih sound₁
      refine ⟨ν', grows₁.trans grows, sound', fun ms all => ?_⟩
      obtain ⟨others, isOthers, rfl⟩ := Option.map_eq_some_iff.1 all
      obtain ⟨values, olds, sees⟩ := looksRest others isOthers
      refine ⟨List.forall_mem_cons.2 ⟨value, values⟩,
        List.forall_mem_cons.2 ⟨old.trans grows.last, olds⟩, ?_⟩
      rw [List.map_cons, List.map_cons, sees, grows.same m old, looks]

/-- What a value of an operation that commutes looks like does not depend on the order of the
numbers. -/
theorem seen_result (A : Arithmetic V) (ν : Nat → Seen V) (op : Opcode) (ms : List Nat) :
    (ValueKey.result op (if op.has .commutes = true then ms.mergeSort else ms)).seen A ν =
      .value (A.result op (ms.map ν)) := by
  split
  · next commutes =>
    exact congrArg Seen.value (A.commutes commutes ((List.mergeSort_perm ms _).map ν))
  · rfl

/-- Recognising what an operation computes. -/
theorem ofCommand_sound (sound : n.Sound A ν s) (op : Opcode) (d : Reg) (xs : List Operand) :
    let c := Command.ofOpcode op (.reg d :: xs)
    ∃ ν', Grows n ν (n.ofCommand c).2 ν' ∧ (n.ofCommand c).2.Sound A ν' s ∧
      ∀ m, (n.ofCommand c).1 = some m → (∀ x ∈ xs, x.isValue = true) ∧
        m ≤ (n.ofCommand c).2.last ∧ ν' m = .value (A.apply op xs s) := by
  intro c
  obtain ⟨ν₁, grows₁, sound₁, looks₁⟩ := ofOperands_sound sound xs
  have operands : n.ofOperands (c.args.drop 1) = n.ofOperands xs := rfl
  unfold ofCommand
  rw [operands, show c.op? = some op from rfl]
  cases numbered : n.ofOperands xs with
  | mk numbers n₁ =>
    rw [numbered] at grows₁ sound₁ looks₁
    cases numbers with
    | none => exact ⟨ν₁, grows₁, sound₁, fun m none => nomatch none⟩
    | some ms =>
      obtain ⟨values, olds, sees⟩ := looks₁ ms rfl
      let key := ValueKey.result op (if op.has .commutes = true then ms.mergeSort else ms)
      have below : key.Below n₁.last := by
        intro k present
        refine olds k ?_
        split at present
        · exact (List.mergeSort_perm _ _).mem_iff.1 present
        · exact present
      obtain ⟨ν', grows, sound', old, looks⟩ := ofKey_sound sound₁ key below
      refine ⟨ν', grows₁.trans grows, sound', ?_⟩
      rintro _ ⟨⟩
      refine ⟨values, old, looks.trans ?_⟩
      rw [seen_result, sees]
      rfl

/-! ## Following code -/

theorem Sound.forget {rs : List Reg} (sound : n.Sound A ν s)
    (frame : ∀ r, r ∉ rs → s'.read A.zero r = s.read A.zero r) : (n.forget rs).Sound A ν s' := by
  refine ⟨sound.keys, fun r m member => ?_⟩
  obtain ⟨present, kept⟩ := List.mem_filter.1 member
  obtain ⟨old, holds⟩ := sound.regs r m present
  refine ⟨old, ?_⟩
  rw [← holds, MachineState.sees, MachineState.sees]
  cases zero : r.isZero with
  | true => simp [MachineState.read, zero]
  | false => rw [frame r (by simpa [zero] using kept)]

/-- Following an instruction. If it gets a number, it computes the value of that number. -/
theorem follow_sound {p : Instr} (sound : n.Sound A ν s) (steps : A.Steps p s s') :
    ∃ ν', Grows n ν (n.follow p).2 ν' ∧ (n.follow p).2.Sound A ν' s' ∧
      ∀ m, (n.follow p).1 = some m → m ≤ (n.follow p).2.last ∧
        ∃ op d xs, p.Computes op d xs ∧ ν' m = .value (A.apply op xs s) := by
  obtain ⟨frame, computed, copied⟩ := steps
  unfold Instr.clobbers at frame
  unfold Instr.copy? at copied
  unfold follow
  cases command : p.command? with
  | none =>
    have nothing : n.forget [] = n := by simp [forget]
    have idles : (n.forget []).Sound A ν s' :=
      sound.forget fun r _ => frame r (by simp [command])
    rw [nothing] at idles
    exact ⟨ν, .refl, idles, by simp⟩
  | some c =>
    simp only [command, Option.elim_some] at frame
    simp only [command, Option.bind_some] at copied
    dsimp only
    cases shareable : c.isShareable with
    | true =>
      obtain ⟨op, d, xs, rfl, nonzero, computes⟩ := Command.computes_of_isShareable shareable
      obtain ⟨ν', grows, sound', looks⟩ := ofCommand_sound sound op d xs
      have forgets := sound'.forget frame
      simp only [if_true]
      cases numbered : n.ofCommand (.ofOpcode op (.reg d :: xs)) with
      | mk number n₁ =>
        rw [numbered] at grows forgets looks
        cases number with
        | none =>
          rw [Command.copy?_of_computes computes]
          exact ⟨ν', ⟨grows.last, grows.same⟩, forgets, by simp⟩
        | some m =>
          obtain ⟨values, old, looks⟩ := looks m rfl
          have isCompute : p.Computes op d xs := ⟨command, nonzero, computes, values⟩
          refine ⟨ν', ⟨grows.last, grows.same⟩, forgets.setReg old ?_, ?_⟩
          · rw [looks, MachineState.sees, computed isCompute]
          · rintro _ ⟨⟩
            exact ⟨old, op, d, xs, isCompute, looks⟩
    | false =>
      have forgets := sound.forget frame
      simp only [Bool.false_eq_true, if_false]
      cases copies : c.copy? with
      | none => exact ⟨ν, ⟨Nat.le_refl _, fun _ _ => rfl⟩, forgets, by simp⟩
      | some registers =>
        obtain ⟨dst, src⟩ := registers
        cases nonzero : dst.isZero with
        | true =>
          simp only [nonzero, if_true]
          exact ⟨ν, ⟨Nat.le_refl _, fun _ _ => rfl⟩, forgets, by simp⟩
        | false =>
          obtain ⟨ν', grows, sound', old, looks⟩ := ofReg_sound forgets src
          simp only [nonzero, Bool.false_eq_true, if_false]
          refine ⟨ν', ⟨grows.last, grows.same⟩, sound'.setReg old ?_, by simp⟩
          rw [looks, MachineState.sees, MachineState.sees]
          -- the number is that of the source behind the copy
          by_cases same : src = dst
          · rw [same]
          · rw [Command.copy?_eq_some] at copies
            rw [copied (Command.copy?_eq_some.2 copies) nonzero, frame src]
            rw [copies, Command.clobbers_copy]
            simpa using same

/-- Following a run. In the end the numbering is sound for a valuation, by which every instruction
that got a number computed the value of that number. -/
theorem followAll_runs {code : List Instr} {states : Nat → MachineState V M}
    (sound : n.Sound A ν (states 0)) (run : A.Runs code states) :
    ∃ ν', Grows n ν (n.followAll code).2 ν' ∧
      (n.followAll code).2.Sound A ν' (states code.length) ∧
      ∀ i m, (n.followAll code).1[i]? = some (some m) → ∃ p op d xs, code[i]? = some p ∧
        p.Computes op d xs ∧ ν' m = .value (A.apply op xs (states i)) := by
  induction code generalizing n ν states with
  | nil => exact ⟨ν, .refl, sound, by simp [followAll]⟩
  | cons q rest ih =>
    obtain ⟨ν₁, grows, sound₁, computes⟩ := follow_sound sound run.head
    obtain ⟨ν', grows', sound', later⟩ := ih sound₁ run.tail
    refine ⟨ν', grows.trans grows', sound', fun i m numbered => ?_⟩
    cases i with
    | zero =>
      simp only [followAll, List.getElem?_cons_zero, Option.some.injEq] at numbered
      obtain ⟨old, op, d, xs, isCompute, looks⟩ := computes m numbered
      exact ⟨q, op, d, xs, rfl, isCompute, (grows'.same m old).trans looks⟩
    | succ i =>
      simp only [followAll, List.getElem?_cons_succ] at numbered
      exact later i m numbered

/-- Following code. Wherever an instruction gets a number, it computes the value of that number. -/
theorem followAll_sound {S : Semantics V M} (sound : n.Sound S.arithmetic ν s)
    (code : List Instr) : ∃ ν' : Nat → Seen V, (∀ m ≤ n.last, ν' m = ν m) ∧
      ∀ i m p, (n.followAll code).1[i]? = some (some m) → code[i]? = some p →
        ∃ op d xs, p.Computes op d xs ∧
          ν' m = .value (S.apply op xs (S.execAll (code.take i) s)) := by
  obtain ⟨ν', grows, -, computes⟩ := followAll_runs sound (S.runs_execAll code s)
  refine ⟨ν', grows.same, fun i m p numbered here => ?_⟩
  obtain ⟨q, op, d, xs, there, isCompute, looks⟩ := computes i m numbered
  obtain rfl : p = q := Option.some.inj (here.symm.trans there)
  exact ⟨op, d, xs, isCompute, looks⟩

end Numbering

end MipsFlow
