import Mathlib.Data.List.Perm.Subperm
import MipsFlow.Proofs.Survival

/-!
# What the passes use up

Every change but one makes a program lighter. An instruction has a weight that depends on its
mnemonic and on the kinds of its operands; computations are the heaviest, then copies and loads, and
an operand weighs more as a register than as a literal. Common subexpression elimination adds an
instruction, but where it computes a value once it leaves copies of the other computations, which
are so much lighter that the block is lighter as a whole. Only copy propagation leaves the weight as
it is: what a command weighs depends on the kinds of its operands alone (`Command.weight_congr`),
and these stay when registers are renamed (`Command.kinds_renameReads`).

* `Redundancy.weight_run`, `Sharing.weight_run`, `DeadCode.weight_run`, `Folding.weight_runFrom` and
  `Jumps.weight_runFrom`: what a change does to the weight.
* `Redundancy.step_run`, `Sharing.step_run` and `DeadCode.step_run`: the passes that start again
  after every change come to an end.
-/

namespace MipsFlow

/-! ## Weights -/

/-- What an operand is, whatever register or value it holds. -/
inductive Operand.Kind where
  | reg
  | imm
  | mem
  | sym
deriving DecidableEq, Repr

/-- The kind of an operand. -/
def Operand.kind : Operand → Operand.Kind
  | .reg _ => .reg
  | .imm _ => .imm
  | .mem _ _ => .mem
  | .sym _ => .sym

theorem Operand.kind_withBase (o : Operand) (r : Reg) : (o.withBase r).kind = o.kind := by
  cases o <;> rfl

namespace Command

variable {c d : Command}

/-- The kinds of the operands. -/
def kinds (c : Command) : List Operand.Kind := c.args.map Operand.kind

/-- The commands that constant folding looks at. -/
def isLoose (c : Command) : Bool :=
  c.isArith || c.copy?.isSome || c.op? = some .mflo || c.op? = some .mfhi || c.readsMemory

/-- The weight of a command. -/
def weight (c : Command) : Nat :=
  1 + (if c.isArith then 6 else 0) + (if c.isLoose then 1 else 0) + c.kinds.count .reg

theorem isSome_copy? :
    c.copy?.isSome = (decide (c.op? = some .move) && decide (c.kinds = [.reg, .reg])) := by
  obtain ⟨mnemonic, args⟩ := c
  unfold copy? kinds
  split
  · next isOp isArgs =>
    simp only at isArgs
    subst isArgs
    simp [isOp, Operand.kind]
  · next other =>
    rw [Option.isSome_none, eq_comm, Bool.and_eq_false_iff]
    simp only [decide_eq_false_iff_not]
    by_contra both
    simp only [not_or, Decidable.not_not] at both
    obtain ⟨isOp, kinds⟩ := both
    match args, kinds with
    | [.reg _, .reg _], _ => exact other _ _ isOp rfl

theorem readsMemory_eq : c.readsMemory = (c.isLoad && c.op? != some .la &&
    match c.kinds with
    | [_, .mem] => true
    | _ => false) := by
  unfold readsMemory kinds
  congr 1
  match c.args with
  | [] | [_] => rfl
  | [_, o] | _ :: o :: _ :: _ => cases o <;> rfl

/-- The weight depends on the mnemonic and on the kinds of the operands. -/
theorem weight_congr (mnemonic : d.mnemonic = c.mnemonic) (kinds : d.kinds = c.kinds) :
    d.weight = c.weight := by
  simp only [weight, isLoose, isSome_copy?, readsMemory_eq, isArith, isLoad, has, op?, mnemonic,
    kinds]
  rfl

theorem kinds_renameReads (a b : Reg) : (c.renameReads a b).kinds = c.kinds := by
  refine List.ext_getElem? fun i => ?_
  simp only [kinds, List.getElem?_map, getElem?_renameReads, Option.map_map]
  congr 1
  funext o
  simp only [Function.comp_apply]
  split
  · exact o.kind_withBase b
  · rfl

@[simp] theorem weight_copy (dst src : Reg) : (copy dst src).weight = 4 := rfl

@[simp] theorem weight_loadImm (dst : Reg) (n : Int64) : (loadImm dst n).weight = 2 := rfl

theorem weight_pos : 0 < c.weight := by
  simp only [weight]
  omega

/-- Whatever is folded and has a destination is heavier than a literal. -/
theorem lt_weight_of_isLoose (loose : c.isLoose = true) {d : Reg} {rest : List Operand}
    (args : c.args = .reg d :: rest) : 2 < c.weight := by
  have register : 0 < c.kinds.count .reg := by simp [kinds, args, Operand.kind]
  simp only [weight, loose, if_true]
  omega

/-- A computation with a destination is heavier than two copies. -/
theorem lt_weight_of_isArith (arith : c.isArith = true) {d : Reg} {rest : List Operand}
    (args : c.args = .reg d :: rest) : 8 < c.weight := by
  have register : 0 < c.kinds.count .reg := by simp [kinds, args, Operand.kind]
  have loose : c.isLoose = true := by simp [isLoose, arith]
  simp only [weight, arith, loose, if_true]
  omega

end Command

namespace Instr

variable {p q : Instr} {f : Command → Nat}

/-- The measure of an instruction, by a measure of commands. What is no command counts once. -/
def gauge (f : Command → Nat) (p : Instr) : Nat := p.command?.elim 1 f

/-- The weight of an instruction. -/
def weight (p : Instr) : Nat := p.gauge Command.weight

theorem gauge_of_command {c : Command} (command : p.command? = some c) : p.gauge f = f c := by
  rw [gauge, command, Option.elim_some]

theorem gauge_pos (pos : ∀ c, 0 < f c) (p : Instr) : 0 < p.gauge f := by
  unfold gauge
  cases p.command? with
  | none => exact Nat.one_pos
  | some c => exact pos c

theorem gauge_of_content (same : q.content = p.content) : q.gauge f = p.gauge f := by
  simp only [gauge, command?, same]

end Instr

/-- The sum over all instructions. -/
def total (f : Instr → Nat) (code : List Instr) : Nat := (code.map f).sum

section Total

variable {f : Instr → Nat} {a b : List Instr} {p : Instr}

@[simp] theorem total_nil : total f [] = 0 := rfl

@[simp] theorem total_cons : total f (p :: a) = f p + total f a := rfl

@[simp] theorem total_append : total f (a ++ b) = total f a + total f b := by
  simp [total]

/-- Notes and identities do not count. -/
theorem total_of_content (reads : ∀ p q : Instr, q.content = p.content → f q = f p)
    (same : b.map Instr.content = a.map Instr.content) : total f b = total f a := by
  replace same := forall₂_of_map_eq same
  induction same with
  | nil => rfl
  | cons same _ ih => rw [total_cons, total_cons, reads _ _ same, ih]

theorem total_gauge_le {f : Command → Nat} {n : Nat} (bound : ∀ c, f c ≤ n) (positive : 1 ≤ n)
    (code : List Instr) : total (·.gauge f) code ≤ n * code.length := by
  induction code with
  | nil => exact Nat.le_refl 0
  | cons p code ih =>
    have here : p.gauge f ≤ n := by
      unfold Instr.gauge
      cases p.command? with
      | none => exact positive
      | some c => exact bound c
    rw [total_cons, List.length_cons, Nat.mul_succ]
    omega

end Total

/-- A step that lowers a measure, and is repeated until nothing is left to do, lowers it as a whole
if there is something to do. -/
theorem exhaust_lowers {α : Type} {step : α → Option α} (measure : α → Nat)
    (lowers : ∀ {a b}, step a = some b → measure b < measure a) {fuel : Nat} {a : α}
    (ends : step (exhaust step fuel a) = none) (starts : (step a).isSome = true) :
    measure (exhaust step fuel a) < measure a := by
  have progress : exhaust step fuel a = a ∨ measure (exhaust step fuel a) < measure a :=
    exhaust_induction (fun a b => b = a ∨ measure b < measure a) (fun _ => Or.inl rfl)
      (fun stepped later => Or.inr (later.elim (fun same => same ▸ lowers stepped)
        fun lower => lower.trans (lowers stepped))) fuel a
  rcases progress with same | lower
  · rw [same] at ends
    simp [ends] at starts
  · exact lower

/-! ## Redundancy elimination -/

namespace Redundancy

/-- A measure of commands that every rule lowers. -/
structure Gauge (f : Command → Nat) : Prop where
  pos : ∀ c, 0 < f c
  congr : ∀ {c d : Command}, d.mnemonic = c.mnemonic → d.kinds = c.kinds → f d = f c
  shift : ∀ {c : Command} {a b : Reg}, c.isShift = true → c.args = [.reg a, .reg b, .imm 0] →
    ∀ dst src, f (.copy dst src) < f c

theorem gauge_weight : Gauge Command.weight where
  pos _ := Command.weight_pos
  congr := Command.weight_congr
  shift {c a b} shifts args dst src := by
    have heavy := Command.lt_weight_of_isArith (Command.isArith_of_isShift shifts) args
    rw [Command.weight_copy]
    omega

/-- Shifts count twice. -/
def effort (c : Command) : Nat := if c.isShift then 2 else 1

theorem gauge_effort : Gauge effort where
  pos c := by
    unfold effort
    split <;> omega
  congr mnemonic _ := by
    simp only [effort, Command.isShift, Command.has, Command.op?, mnemonic]
    rfl
  shift shifts _ _ _ := by
    rw [effort, effort, if_pos shifts]
    exact Nat.one_lt_two

variable {f : Command → Nat} {v : View} {next : Nat} {p : Instr} {c : Command} {rest : List Instr}
variable {w : Substitution}

/-- Every rule lowers the measure of its window. -/
theorem rule_lowers (gauge : Gauge f) {rule : Rule} (isRule : rule ∈ rules)
    (command : p.command? = some c) (applies : rule v next p c rest = some w) :
    total (·.gauge f) w.repl < total (·.gauge f) ((p :: rest).take w.count) := by
  have pos (q : Instr) : 0 < q.gauge f := q.gauge_pos gauge.pos
  -- a command is dropped, and the one beside it keeps its mnemonic and the kinds of its operands
  have drop {q q' : Instr} (same : q'.gauge f = q.gauge f) :
      total (·.gauge f) [q'] < total (·.gauge f) [p, q] := by
    have := pos p
    simp only [total_cons, total_nil]
    omega
  have kept {q : Instr} {d : Command} (command : q.command? = some d) (args : List Operand)
      (kinds : args.map Operand.kind = d.kinds) :
      (q.withCommand { d with args }).gauge f = q.gauge f := by
    rw [Instr.gauge_of_command command, Instr.gauge_of_command (q.command?_withCommand _)]
    exact gauge.congr rfl kinds
  have dropLast {q : Instr} : total (·.gauge f) [p] < total (·.gauge f) [p, q] := by
    have := pos q
    simp only [total_cons, total_nil]
    omega
  have dropOnly : total (·.gauge f) [] < total (·.gauge f) [p] := by
    simpa using pos p
  simp only [rules, List.mem_cons, List.not_mem_nil, or_false] at isRule
  rcases isRule with rfl | rfl | rfl | rfl | rfl | rfl | rfl
  · obtain ⟨a, rfl, count, repl, -⟩ := dropSelfCopy_eq_some applies
    rw [count, repl]
    exact dropOnly
  · obtain ⟨a, b, q, others, d, rfl, rfl, command', -, -, -, second, -, -, count, repl, -⟩ :=
      readThroughCopy_eq_some applies
    rw [count, repl]
    refine drop (kept command' _ ?_)
    obtain ⟨inside, isSecond⟩ := List.getElem?_eq_some_iff.1 second
    have bound : 1 < (d.args.map Operand.kind).length := by simpa using inside
    have same : (Operand.reg b).kind = (d.args.map Operand.kind)[1] := by
      rw [List.getElem_map, isSecond]
      rfl
    rw [List.map_set, same, List.set_getElem_self]
    rfl
  · obtain ⟨t, args, a, q, r, others, call, shape, rfl, -, -, -, -, -, -, -, -, -, count, repl,
      -⟩ := computeArgument_eq_some applies
    rw [count, repl]
    have same := kept command (.reg a :: args) (by simp [Command.kinds, shape, Operand.kind])
    have := pos q
    simp only [total_cons, total_nil, List.take_succ_cons, List.take_zero, same]
    omega
  · obtain ⟨a, b, q, others, rfl, rfl, -, count, repl, -⟩ := dropCopyBack_eq_some applies
    rw [count, repl]
    exact dropLast
  · obtain ⟨store, load, value, offset, base, q, others, d, -, -, -, rfl, -, -, -, count, repl,
      -⟩ := dropReload_eq_some applies
    rw [count, repl]
    exact dropLast
  · obtain ⟨a, b, shifts, args, -, count, repl⟩ := simplifyShift_eq_some applies
    rw [count]
    rcases repl with ⟨-, repl, -⟩ | ⟨-, repl, -⟩
    · rw [repl]
      exact dropOnly
    · rw [repl]
      have lighter := gauge.shift shifts args a b
      have copied := Instr.gauge_of_command (f := f) (Instr.command?_ofCommand next (.copy a b))
      simp only [total_cons, total_nil, List.take_succ_cons, List.take_zero, copied,
        Instr.gauge_of_command command]
      omega
  · obtain ⟨a, n, dst, m, q, others, d, -, -, rfl, command', -, args', -, count, repl, -⟩ :=
      foldOffset_eq_some applies
    rw [count, repl]
    exact drop (kept command' _ (by simp [Command.kinds, args', Operand.kind]))

theorem step_lowers (gauge : Gauge f) {x y : BlockCode} (stepped : step v x = some y) :
    total (·.gauge f) y.code < total (·.gauge f) x.code := by
  obtain ⟨before, p, rest, c, rule, w, command, isRule, applies, isCode, -, edited⟩ :=
    step_eq_some stepped
  have lower := rule_lowers gauge isRule command applies
  rw [total_of_content (fun _ _ => Instr.gauge_of_content) edited, isCode]
  simp only [total_append]
  omega

/-- The search starts again as long as something is found, and it ends. -/
theorem step_run (v : View) (x : BlockCode) : step v (run v x) = none := by
  refine step_exhaust_eq_none (step v) (fun x => total (·.gauge effort) x.code)
    (fun _ _ => step_lowers gauge_effort) _ x (total_gauge_le (fun c => ?_) (Nat.le_succ 1) x.code)
  unfold effort
  split <;> omega

/-- If the pass changes anything, it makes the block lighter. -/
theorem weight_run {x : BlockCode} (changed : (step v x).isSome = true) :
    total Instr.weight (run v x).code < total Instr.weight x.code :=
  exhaust_lowers (fun x : BlockCode => total Instr.weight x.code)
    (step_lowers gauge_weight) (step_run v x) changed

end Redundancy

/-! ## Common subexpression elimination -/

namespace Sharing

variable {v : View} {next : Nat} {t : Reg} {positions : List Nat} {f : Command → Nat} {k : Nat}
variable {copied saved : Nat}

/-- A measure by which a shared value costs a copy, and saves something at every position. -/
structure Gauge (f : Command → Nat) (copied saved : Nat) : Prop where
  copy : ∀ dst src, f (.copy dst src) = copied
  saves : ∀ {op : Opcode} {d : Reg} {xs : List Operand}, op.Computes xs.length →
    copied + saved ≤ f (.ofOpcode op (.reg d :: xs))
  redirect : ∀ {op : Opcode} {d t : Reg} {xs : List Operand},
    f (.ofOpcode op (.reg t :: xs)) = f (.ofOpcode op (.reg d :: xs))

/-- What takes the place of a computation. The copy at the first position comes on top. -/
theorem total_hoisted (v : View) (next : Nat) (t : Reg) (gauge : Gauge f copied saved) {p : Instr}
    {i : Nat}
    (computes : i ∈ positions → ∃ op d xs, p.Computes op d xs) :
    total (·.gauge f) (hoisted v next t positions (p, i)) + (if i ∈ positions then saved else 0) ≤
      p.gauge f + if positions.head? = some i then copied + saved else 0 := by
  cases isPlace : positions.idxOf? i with
  | none =>
    have absent : i ∉ positions := List.idxOf?_eq_none_iff.1 isPlace
    have stays : hoisted v next t positions (p, i) = [p] := by simp [hoisted, isPlace]
    rw [stays, if_neg absent, total_cons, total_nil]
    omega
  | some j =>
    obtain ⟨inside, isHere, -⟩ := List.idxOf?_eq_some_iff.1 isPlace
    have member : i ∈ positions := isHere ▸ List.getElem_mem inside
    obtain ⟨op, d, xs, computes⟩ := computes member
    have heavy := gauge.saves (d := d) computes.computes
    have isCopy := (Instr.gauge_of_command (f := f) (command?_replaceByCopy (v := v) (t := t)
      computes (next + (positions.length - j)))).trans (gauge.copy d t)
    have isComputation : (v.noted (redirect (p.clone next) t)
        ("common subexpression hoisted into " ++ t.name)).gauge f = p.gauge f := by
      have command : (p.clone next).command? = p.command? := rfl
      rw [Instr.gauge_of_command (c := .ofOpcode op (.reg t :: xs)),
        Instr.gauge_of_command computes.command, gauge.redirect]
      rw [View.command?_noted, command?_redirect, command, computes.command]
      rfl
    have old := Instr.gauge_of_command (f := f) computes.command
    simp only [hoisted, isPlace, member, if_true]
    split
    · next first =>
      subst first
      have isFirst : positions.head? = some i := by
        rw [List.head?_eq_getElem?, List.getElem?_eq_getElem inside, isHere]
      rw [if_pos isFirst, total_cons, total_cons, total_nil, isComputation, isCopy]
      omega
    · rw [total_cons, total_nil, isCopy, old]
      omega

/-- What the pieces save adds up. -/
theorem total_pieces (v : View) (next : Nat) (t : Reg) (positions : List Nat) (code : List Instr)
    (gauge : Gauge f copied saved)
    (computes : ∀ i p, code[i]? = some p → k + i ∈ positions → ∃ op d xs, p.Computes op d xs) :
    total (·.gauge f) ((code.zipIdx k).flatMap (hoisted v next t positions)) +
        saved * (List.range' k code.length).countP (· ∈ positions) ≤
      total (·.gauge f) code +
        (copied + saved) * (List.range' k code.length).countP (positions.head? = some ·) := by
  induction code generalizing k with
  | nil => simp
  | cons p rest ih =>
    have here := total_hoisted v next t gauge (computes 0 p rfl)
    have later := ih (k := k + 1) fun i q isHere position =>
      computes (i + 1) q isHere (by rwa [Nat.add_assoc, Nat.add_comm 1] at position)
    have scaled (x n : Nat) (holds : Prop) [Decidable holds] :
        x * (n + if holds then 1 else 0) = x * n + if holds then x else 0 := by
      split <;> simp [Nat.mul_add]
    rw [List.zipIdx_cons, List.flatMap_cons, total_append, total_cons, List.length_cons,
      List.range'_succ, List.countP_cons, List.countP_cons, scaled, scaled]
    simp only [decide_eq_true_eq, Nat.add_zero] at here ⊢
    omega

/-- Sharing a value costs a copy, and saves something at every position but the first. -/
theorem total_step (gauge : Gauge f copied saved) {x y : BlockCode} (stepped : step v x = some y) :
    total (·.gauge f) y.code + saved ≤ total (·.gauge f) x.code + copied := by
  obtain ⟨first, others, t, nonempty, member, -, rfl⟩ := step_eq_some stepped
  have several : 2 ≤ (first :: others).length :=
    Nat.succ_le_succ (List.length_pos_iff.2 nonempty)
  generalize first :: others = positions at member several ⊢
  obtain ⟨ordered, number, numbered⟩ := of_mem_occurrences member
  have pieces := total_pieces (k := 0) v x.nextId t positions x.code gauge
    fun i p here position => by
      obtain ⟨q, op, d, xs, here', computes, -⟩ :=
        computes_of_mem_occurrences member (Nat.zero_add i ▸ position)
      obtain rfl := Option.some.inj (here.symm.trans here')
      exact ⟨op, d, xs, computes⟩
  obtain ⟨places, isPlaces⟩ : ∃ places, places = List.range' 0 x.code.length := ⟨_, rfl⟩
  rw [← isPlaces] at pieces
  have several : 2 ≤ places.countP (· ∈ positions) := by
    refine several.trans ?_
    rw [List.countP_eq_length_filter]
    have distinct : positions.Nodup := ordered.imp Nat.ne_of_lt
    refine (distinct.subperm fun i position => List.mem_filter.2 ⟨?_, by simpa⟩).length_le
    obtain ⟨p, here, -⟩ := numbered i position
    simpa [isPlaces] using (List.getElem?_eq_some_iff.1 here).1
  have once : places.countP (positions.head? = some ·) ≤ 1 := by
    cases positions.head? with
    | none => simp
    | some first =>
      have distinct : places.Nodup := isPlaces ▸ List.nodup_range' ..
      simpa [List.count, beq_eq_decide, eq_comm] using
        List.nodup_iff_count_le_one.1 distinct first
  have saves := Nat.mul_le_mul_left saved several
  have costs := Nat.mul_le_mul_left (copied + saved) once
  simp only [hoist_eq]
  omega

theorem gauge_weight : Gauge Command.weight 4 5 where
  copy := Command.weight_copy
  saves {op d xs} computes := by
    have arith : (Command.ofOpcode op (.reg d :: xs)).isArith = true := computes.arith
    exact Command.lt_weight_of_isArith arith rfl
  redirect := Command.weight_congr rfl rfl

/-- What does not compute does not count. -/
def count (c : Command) : Nat := if c.isArith then 1 else 0

theorem gauge_count : Gauge count 0 1 where
  copy _ _ := rfl
  saves {op d xs} computes := by
    have arith : (Command.ofOpcode op (.reg d :: xs)).isArith = true := computes.arith
    rw [count, if_pos arith]
  redirect := rfl

/-- The search starts again as long as a value is shared, and it ends. -/
theorem step_run (v : View) (x : BlockCode) : step v (run v x) = none := by
  refine step_exhaust_eq_none (step v) (fun x => total (·.gauge count) x.code)
    (fun _ _ => total_step gauge_count) _ x ?_
  refine (total_gauge_le (n := 1) (fun c => ?_) (Nat.le_refl 1) x.code).trans_eq (Nat.one_mul _)
  unfold count
  split <;> omega

/-- If a value is shared, the block gets lighter. -/
theorem weight_run {x : BlockCode} (changed : (step v x).isSome = true) :
    total Instr.weight (run v x).code < total Instr.weight x.code :=
  exhaust_lowers (fun x : BlockCode => total Instr.weight x.code)
    (fun stepped => Nat.lt_of_add_lt_add_right (n := 4) (total_step gauge_weight stepped))
    (step_run v x) changed

end Sharing

/-! ## Dead code elimination -/

namespace DeadCode

variable {v : View} {f : Instr → Nat} {code code' : List Instr}

theorem total_cleaned_le (f : Instr → Nat) (v : View) (code : List Instr) :
    total f (cleaned v code) ≤ total f code := by
  induction code with
  | nil => exact Nat.le_refl 0
  | cons p rest ih =>
    unfold cleaned
    split
    · exact ih.trans (Nat.le_add_left ..)
    · exact Nat.add_le_add_left ih _

theorem total_cleaned (pos : ∀ p, 0 < f p) {i : Nat} (dead : deadFrom v i code ≠ []) :
    total f (cleaned v code) < total f code := by
  induction code generalizing i with
  | nil => exact absurd rfl dead
  | cons p rest ih =>
    have here := pos p
    have later := total_cleaned_le f v rest
    unfold deadFrom at dead
    unfold cleaned
    split at dead
    · next isDead =>
      rw [if_pos isDead, total_cons]
      omega
    · next stays =>
      have lower := ih dead
      rw [if_neg stays, total_cons, total_cons]
      omega

theorem step_lowers (pos : ∀ p, 0 < f p) (reads : ∀ p q : Instr, q.content = p.content → f q = f p)
    (stepped : step v code = some code') : total f code' < total f code := by
  have same : code'.map Instr.content = (cleaned v code).map Instr.content := by
    have bare := congrArg (List.map Instr.content) (bare_step stepped)
    rwa [List.map_map, List.map_map] at bare
  rw [total_of_content reads same]
  exact total_cleaned pos (step_eq_some stepped).1

/-- The search starts again as long as something is removed, and it ends. -/
theorem step_run (v : View) (code : List Instr) : step v (run v code) = none := by
  refine step_exhaust_eq_none (step v) (total fun _ => 1)
    (fun _ _ => step_lowers (fun _ => Nat.one_pos) fun _ _ _ => rfl) _ code ?_
  simp [total]

/-- If anything is removed, the block gets lighter. -/
theorem weight_run (changed : (step v code).isSome = true) :
    total Instr.weight (run v code) < total Instr.weight code :=
  exhaust_lowers (total Instr.weight) (step_lowers (Instr.gauge_pos fun _ => Command.weight_pos)
    fun _ _ => Instr.gauge_of_content) (step_run v code) changed

end DeadCode

/-! ## Constant folding -/

namespace Folding

variable {v : View} {k : Known} {c c' : Command} {p : Instr}

/-- A computation that can be reduced weighs as much as its last two operands let it. -/
theorem weight_of_mem_reducible {op : Opcode} (member : op ∈ reducible) (d : Reg) (x y : Operand) :
    (Command.ofOpcode op [.reg d, x, y]).weight = 9 + [x.kind, y.kind].count .reg := by
  simp only [reducible, List.mem_cons, List.not_mem_nil, or_false] at member
  have register : (Command.ofOpcode op [.reg d, x, y]).kinds.count .reg =
      1 + [x.kind, y.kind].count .reg := by
    rw [Nat.add_comm]
    exact List.count_cons_self
  have arith : (Command.ofOpcode op [.reg d, x, y]).isArith = true := by
    rcases member with rfl | rfl | rfl | rfl | rfl | rfl | rfl | rfl | rfl | rfl | rfl <;> rfl
  simp only [Command.weight, Command.isLoose, arith, register, Bool.true_or, if_true]
  omega

/-- What a command is exchanged for is not heavier, and lighter if it is folded. -/
theorem Exchange.weight (exchange : Exchange k c c') :
    c'.weight ≤ c.weight ∧ (c.isLoose = true → c'.weight < c.weight) := by
  induction exchange with
  | result _ args =>
    refine ⟨?_, fun loose => Command.lt_weight_of_isLoose loose args⟩
    rw [Command.weight_loadImm, Command.weight, Command.kinds, args, List.map_cons, Operand.kind,
      List.count_cons_self]
    omega
  | literal takes =>
    have weight := weight_of_mem_reducible (mem_of_takesLiteral takes)
    simp [weight, Operand.kind]
  | swap takes =>
    have weight := weight_of_mem_reducible (mem_of_takesLiteral takes)
    simp [weight, Operand.kind]
  | simplify simpler =>
    have weight := weight_of_mem_reducible (mem_of_simplified? simpler)
    obtain ⟨rfl, -⟩ | ⟨rfl, -⟩ := of_simplified? simpler <;> simp [weight, Operand.kind]
  | trans _ _ first second => exact ⟨second.1.trans first.1, fun loose =>
      second.1.trans_lt (first.2 loose)⟩

theorem weight_fold (command : p.command? = some c) (next : Nat) :
    (fold v k next p c).instr.weight ≤ p.weight ∧
      ((fold v k next p c).changed = true → (fold v k next p c).instr.weight < p.weight) := by
  cases foldable : isFoldable v c with
  | false =>
    rw [fold_of_not_isFoldable foldable]
    exact ⟨Nat.le_refl _, fun changed => by cases changed⟩
  | true =>
    have loose : c.isLoose = true := (Bool.and_eq_true_iff.1 foldable).1
    rcases fold_exchange v k next p c with same | ⟨-, c', command', exchange⟩
    · rw [same]
      exact ⟨Nat.le_refl _, fun changed => by cases changed⟩
    · obtain ⟨-, lighter⟩ := exchange.weight
      rw [Instr.weight, Instr.weight, Instr.gauge_of_command command,
        Instr.gauge_of_command command']
      exact ⟨(lighter loose).le, fun _ => lighter loose⟩

/-- If anything is folded, the block gets lighter. -/
theorem weight_runFrom (v : View) (k : Known) (next : Nat) (code : List Instr) :
    total Instr.weight (runFrom v k next code).block.code ≤ total Instr.weight code ∧
      ((runFrom v k next code).changed = true →
        total Instr.weight (runFrom v k next code).block.code < total Instr.weight code) := by
  induction code generalizing k next with
  | nil => exact ⟨Nat.le_refl _, fun changed => by cases changed⟩
  | cons p rest ih =>
    unfold runFrom
    split
    · obtain ⟨le, lower⟩ := ih k next
      exact ⟨Nat.add_le_add_left le _, fun changed => Nat.add_lt_add_left (lower changed) _⟩
    · next c command =>
      obtain ⟨le, lower⟩ := weight_fold (v := v) (k := k) command next
      simp only
      split
      · exact ⟨Nat.add_le_add_right le _, fun changed => Nat.add_lt_add_right (lower changed) _⟩
      · next k' _ =>
        obtain ⟨later, lowerLater⟩ := ih k' (fold v k next p c).nextId
        refine ⟨Nat.add_le_add le later, fun changed => ?_⟩
        rcases Bool.or_eq_true_iff.1 changed with here | there
        · exact Nat.add_lt_add_of_lt_of_le (lower here) later
        · exact Nat.add_lt_add_of_le_of_lt le (lowerLater there)

end Folding

/-! ## Jumps -/

namespace Jumps

variable {annotated : Bool} {next : Nat} {pending : List String} {code a b : List Instr}

/-- A branch is not heavier than the one it is the opposite of. -/
theorem Inverts.weight {target label : String} {c c' : Command} (inverts : Inverts target c c')
    (isLabel : c.target? = some label) : c'.weight ≤ c.weight := by
  obtain ⟨op, op', isOp, inverse, rfl⟩ := inverts
  obtain ⟨args, isArgs⟩ : ∃ args, c.args = args ++ [.sym label] :=
    ⟨_, (List.dropLast_append_getLast? _ (Command.getLast?_of_target? isLabel)).symm⟩
  have none (args : List Operand) : (Command.ofOpcode op' args).isArith = false ∧
      (Command.ofOpcode op' args).isLoose = false := by
    have isOp' := Command.op?_ofOpcode op' args
    have traits := (traits_of_inverse? inverse).2
    have others : op' ≠ .move ∧ op' ≠ .mflo ∧ op' ≠ .mfhi := by
      refine ⟨?_, ?_, ?_⟩ <;> rintro rfl <;> cases traits
    simp [Command.isLoose, Command.isArith, Command.isSome_copy?, Command.readsMemory,
      Command.isLoad, Command.has_of_op? isOp', Opcode.has, traits, others]
  have registers : (Command.ofOpcode op' (c.args.dropLast ++ [.sym target])).kinds.count .reg =
      c.kinds.count .reg := by
    simp [Command.kinds, Command.ofOpcode, isArgs, Operand.kind]
  rw [Command.weight, Command.weight, (none _).1, (none _).2, registers]
  simp only [Bool.false_eq_true, if_false]
  omega

/-- If a jump is simplified, the program gets lighter. -/
theorem weight_runFrom (annotated : Bool) (next : Nat) (pending : List String)
    (code : List Instr) :
    total Instr.weight (runFrom annotated next pending code).code ≤ total Instr.weight code ∧
      ((runFrom annotated next pending code).changed = true →
        total Instr.weight (runFrom annotated next pending code).code <
          total Instr.weight code) := by
  have pos (p : Instr) : 0 < p.weight := p.gauge_pos fun _ => Command.weight_pos
  have same (p : Instr) (messages : List String) : (p.annotate messages).weight = p.weight :=
    Instr.gauge_of_content (p.content_annotate messages)
  induction next, pending, code using runFrom_induction annotated with
  | nil => exact ⟨Nat.le_refl _, fun changed => by cases changed⟩
  | inverts next pending p q after c' inverts ih =>
    obtain ⟨_, _, c, d, label, target, isRest, command, -, isInverse, isLabel, -⟩ :=
      inverted?_spec inverts
    cases isRest
    rw [runFrom_of_inverts inverts]
    have old : p.weight = c.weight := (same p pending).symm.trans (Instr.gauge_of_command command)
    have lighter := isInverse.weight isLabel
    have branch : ((((p.annotate pending).clone next).withCommand c').annotate (notes annotated
        [p.annotate pending, q] ("branch inverted: " ++ (p.annotate pending).text))).weight =
          c'.weight := by
      rw [same, Instr.weight, Instr.gauge_of_command (Instr.command?_withCommand _ c')]
    have jump := pos q
    have lower : total Instr.weight ((((p.annotate pending).clone next).withCommand c').annotate
        (notes annotated [p.annotate pending, q] ("branch inverted: " ++
          (p.annotate pending).text)) :: (runFrom annotated (next + 1) [] after).code) <
          total Instr.weight (p :: q :: after) := by
      simp only [total_cons, branch]
      omega
    exact ⟨lower.le, fun _ => lower⟩
  | skips next pending p rest noInverse skips ih =>
    rw [runFrom_of_skips noInverse skips]
    have lower := ih.1.trans_lt (Nat.lt_add_of_pos_left (pos p))
    exact ⟨lower.le, fun _ => lower⟩
  | stays next pending p rest noInverse stays ih =>
    rw [runFrom_of_stays noInverse stays]
    obtain ⟨le, lower⟩ := ih
    simp only [total_cons, same]
    exact ⟨Nat.add_le_add_left le _, fun changed => Nat.add_lt_add_left (lower changed) _⟩

end Jumps

end MipsFlow
