import Mathlib.Data.List.TakeWhile
import MipsFlow.Proofs.Machine
import MipsFlow.Proofs.Rework

/-!
# Control flow of flat programs

A flat program runs from its first instruction. What its commands do to the state, and whether a
branch is taken, is open (`Control`); where control goes next is not. A run leaves a trace of the
commands that it executes, and it may end: at a return, at a jump to a label that the program does
not declare, at a jump to where a register says, or behind the last instruction.

Two programs are compared by what is seen of their traces, and by how they end (`Alike`). It is
enough to find a relation between points of their runs from which they go on together
(`Together`): either both take a step, or one of them takes a step at which nothing is to be seen.
Then all that the one shows, the other shows as well, and the other way round: `alike_of_together`.
-/

namespace MipsFlow

open Machine (behind)

namespace Command

variable {c : Command} {label : String}

theorem isJump_of_target? (target : c.target? = some label) : c.isJump = true := by
  unfold target? at target
  split at target
  · assumption
  · contradiction

theorem getLast?_of_target? (target : c.target? = some label) :
    c.args.getLast? = some (.sym label) := by
  unfold target? at target
  split at target
  · split at target
    · next last =>
      rw [last, Option.some.inj target]
    · contradiction
  · contradiction

theorem target?_of_getLast? (jumps : c.isJump = true) (last : c.args.getLast? = some (.sym label)) :
    c.target? = some label := by
  rw [target?, if_pos jumps, last]

/-- A return goes to no label. -/
theorem isReturn_of_target? (target : c.target? = some label) : c.isReturn = false := by
  rw [Bool.eq_false_iff]
  intro returns
  obtain ⟨-, isLink⟩ := Bool.and_eq_true_iff.1 returns
  have last := getLast?_of_target? target
  rw [of_decide_eq_true isLink] at last
  simp at last

theorem isCall_of_isReturn (returns : c.isReturn = true) : c.isCall = false := by
  simp only [isReturn, Bool.and_eq_true, Bool.or_eq_true, decide_eq_true_eq] at returns
  rcases returns.1 with isOp | isOp <;> simp [isCall, has, isOp, Opcode.has, Opcode.traits]

end Command

/-- What the commands of a program do to states of some kind. -/
structure Control (S : Type*) where
  /-- The state after a command that is no jump, or after a call. -/
  exec : Command → S → S
  /-- A branch is taken. -/
  taken : Command → S → Bool
  /-- A call goes on at its target in the program, and comes back at a return. Other calls run code
  that is not in sight. -/
  enters : Command → S → Bool

namespace Control

variable {S E : Type*}

/-! ## Runs -/

/-- A command that is executed, and the state before it. -/
structure Executed (S : Type*) where
  id : Nat
  command : Command
  state : S

/-- The way a run ends. -/
inductive Ending (S : Type*) where
  | returned (last : Executed S)
  /-- The program does not declare the label of a jump. -/
  | unresolved (label : String) (state : S)
  | indirect (last : Executed S)
  | offEnd (state : S)

/-- The trace of a run so far, and its ending if it has come to it. -/
structure Observed (S : Type*) where
  executed : List (Executed S)
  ending? : Option (Ending S)

/-- Where a run has come to: the part of the program that lies ahead, the parts that lie behind the
calls to come back to, and the state. -/
structure Point (S : Type*) where
  ahead : List Instr
  pending : List (List Instr)
  state : S

/-- The next step of a run. -/
inductive Move (S : Type*) where
  | stop (ending : Ending S)
  | go (executed? : Option (Executed S)) (next : Point S)

/-- What is observed if a command was executed before. -/
def Observed.after (executed? : Option (Executed S)) (o : Observed S) : Observed S :=
  { o with executed := executed?.toList ++ o.executed }

/-- A jump to a label. -/
def jump (code : List Instr) (label : String) (here : Executed S) (p : Point S) : Move S :=
  if behind label code = [] then .stop (.unresolved label p.state)
  else .go (some here) { p with ahead := behind label code }

variable (C : Control S)

/-- The point after a call. -/
def call (code : List Instr) (c : Command) (p : Point S) : Point S :=
  let state := C.exec c p.state
  match c.target? with
  | some label =>
    if C.enters c p.state && behind label code ≠ [] then
      ⟨behind label code, p.ahead :: p.pending, state⟩
    else { p with state }
  | none => { p with state }

/-- The command is a branch that is not taken. -/
def passes (c : Command) (s : S) : Bool := c.isBranch && !C.taken c s

/-- What a command does; the point lies behind it. -/
def obey (code : List Instr) (id : Nat) (c : Command) (p : Point S) : Move S :=
  let here : Executed S := ⟨id, c, p.state⟩
  if c.isReturn then
    match p.pending with
    | [] => .stop (.returned here)
    | back :: pending => .go (some here) ⟨back, pending, p.state⟩
  else if c.isCall then .go (some here) (C.call code c p)
  else if c.isJump then
    if C.passes c p.state then .go (some here) p
    else
      match c.target? with
      | some label => jump code label here p
      | none => .stop (.indirect here)
  else .go (some here) { p with state := C.exec c p.state }

/-- One step. -/
def move (code : List Instr) (p : Point S) : Move S :=
  match p.ahead with
  | [] => .stop (.offEnd p.state)
  | i :: ahead =>
    match i.command? with
    | none => .go none { p with ahead }
    | some c => C.obey code i.id c { p with ahead }

/-- What is observed within so many steps. -/
def run (code : List Instr) : Nat → Point S → Observed S
  | 0, _ => ⟨[], none⟩
  | fuel + 1, p =>
    match C.move code p with
    | .stop ending => ⟨[], some ending⟩
    | .go executed? next => (run code fuel next).after executed?

/-- The start of a program. -/
def start (code : List Instr) (s : S) : Point S := ⟨code, [], s⟩

/-- A command other than a jump, or a call. -/
def Executed.visible? (e : Executed S) : Option (Executed S) :=
  if e.command.isJump && !e.command.isCall then none else some e

/-- What is observed, without jumps. -/
def Observed.visible (o : Observed S) : Observed S :=
  { o with executed := o.executed.filterMap Executed.visible? }

/-- A run from the point comes to show this. -/
def Shows (code : List Instr) (p : Point S) (o : Observed S) : Prop :=
  ∃ fuel, (C.run code fuel p).visible = o

/-- A run from the point never ends. -/
def Diverges (code : List Instr) (p : Point S) : Prop :=
  ∀ fuel, (C.run code fuel p).ending? = none

/-- A branch and the opposite one, on the same operands and wherever they go, never decide alike. -/
def Opposed : Prop :=
  ∀ op op' : Opcode, op.inverse? = some op' → ∀ (xs : List Operand) (label target : String) (s : S),
    C.taken (.ofOpcode op' (xs ++ [.sym target])) s = !C.taken (.ofOpcode op (xs ++ [.sym label])) s

variable {C} {code code' : List Instr} {p q p' q' : Point S}

theorem run_of_go {executed? : Option (Executed S)} (moves : C.move code p = .go executed? q)
    (fuel : Nat) : C.run code (fuel + 1) p = (C.run code fuel q).after executed? := by
  rw [run, moves]

theorem run_of_stop {ending : Ending S} (moves : C.move code p = .stop ending) (fuel : Nat) :
    C.run code (fuel + 1) p = ⟨[], some ending⟩ := by
  rw [run, moves]

theorem diverges_iff :
    C.Diverges code p ↔ ∀ o, C.Shows code p o → o.ending? = none := by
  constructor
  · rintro diverges o ⟨fuel, rfl⟩
    exact diverges fuel
  · intro ends fuel
    exact ends (C.run code fuel p).visible ⟨fuel, rfl⟩

/-! ## Running together -/

section Together

variable {watch : Executed S → Option E} {Q : Ending S → Ending S → Prop}
variable {R : Point S → Point S → Prop}

/-- The same is seen of the two traces, and the endings are related if there are any. -/
structure Alike (watch : Executed S → Option E) (Q : Ending S → Ending S → Prop)
    (o o' : Observed S) : Prop where
  executed : o'.executed.filterMap watch = o.executed.filterMap watch
  ending : Option.Rel Q o.ending? o'.ending?

/-- Two steps end the runs in the same way, or the same is seen of them and they lead to related
points. -/
inductive Move.Alike (watch : Executed S → Option E) (Q : Ending S → Ending S → Prop)
    (R : Point S → Point S → Prop) : Move S → Move S → Prop
  | stop {e e' : Ending S} : Q e e' → Move.Alike watch Q R (.stop e) (.stop e')
  | go {x? x'? : Option (Executed S)} {q q' : Point S} : x'?.bind watch = x?.bind watch → R q q' →
    Move.Alike watch Q R (.go x? q) (.go x'? q')

theorem Move.Alike.symm {m m' : Move S} (alike : Move.Alike watch Q R m m') :
    Move.Alike watch (fun e' e => Q e e') (fun q' q => R q q') m' m := by
  cases alike with
  | stop related => exact .stop related
  | go same related => exact .go same.symm related

/-- How two programs go on from related points: both take the same step, or one of them takes a step
ahead at which nothing is to be seen. -/
inductive Together (C : Control S) (watch : Executed S → Option E) (Q : Ending S → Ending S → Prop)
    (R : Point S → Point S → Prop) (code code' : List Instr) (p p' : Point S) : Prop
  | both : Move.Alike watch Q R (C.move code p) (C.move code' p') →
    Together C watch Q R code code' p p'
  | first {x? : Option (Executed S)} {q : Point S} : C.move code p = .go x? q →
    x?.bind watch = none → q.ahead.length < p.ahead.length → R q p' →
    Together C watch Q R code code' p p'
  | second {x'? : Option (Executed S)} {q' : Point S} : C.move code' p' = .go x'? q' →
    x'?.bind watch = none → q'.ahead.length < p'.ahead.length → R p q' →
    Together C watch Q R code code' p p'

theorem Together.symm (together : Together C watch Q R code code' p p') :
    Together C watch (fun e' e => Q e e') (fun q' q => R q q') code' code p' p := by
  cases together with
  | both alike => exact .both alike.symm
  | first moves hidden ahead related => exact .second moves hidden ahead related
  | second moves hidden ahead related => exact .first moves hidden ahead related

theorem filterMap_after (x? : Option (Executed S)) (o : Observed S) :
    (o.after x?).executed.filterMap watch =
      (x?.bind watch).toList ++ o.executed.filterMap watch := by
  unfold Observed.after
  cases x? with
  | none => rfl
  | some x => cases seen : watch x <;> simp [seen]

namespace Alike

variable {o o' : Observed S} {x? x'? : Option (Executed S)}

theorem after (alike : Alike watch Q o o') (same : x'?.bind watch = x?.bind watch) :
    Alike watch Q (o.after x?) (o'.after x'?) := by
  refine ⟨?_, alike.ending⟩
  rw [filterMap_after, filterMap_after, same, alike.executed]

theorem after_left (alike : Alike watch Q o o') (hidden : x?.bind watch = none) :
    Alike watch Q (o.after x?) o' := by
  refine ⟨?_, alike.ending⟩
  rw [filterMap_after, hidden, alike.executed]
  rfl

theorem after_right (alike : Alike watch Q o o') (hidden : x'?.bind watch = none) :
    Alike watch Q o (o'.after x'?) := by
  refine ⟨?_, alike.ending⟩
  rw [filterMap_after, hidden, alike.executed]
  rfl

theorem symm (alike : Alike watch Q o o') : Alike watch (fun e' e => Q e e') o' o := by
  obtain ⟨executed, ending⟩ := o
  obtain ⟨executed', ending'⟩ := o'
  refine ⟨alike.executed.symm, ?_⟩
  cases (show Option.Rel Q ending ending' from alike.ending) with
  | none => exact .none
  | some related => exact .some related

/-- If nothing but jumps is passed over, the same is shown. -/
theorem visible_eq (alike : Alike Executed.visible? Eq o o') : o'.visible = o.visible := by
  have ending : o.ending? = o'.ending? := by
    obtain ⟨executed, ending⟩ := o
    obtain ⟨executed', ending'⟩ := o'
    cases (show Option.Rel Eq ending ending' from alike.ending) with
    | none => rfl
    | some same => exact congrArg some same
  unfold Observed.visible
  rw [alike.executed, ending]

end Alike

/-- What a program shows, a program that goes on together with it shows, too. -/
theorem alike_of_together (together : ∀ p p', R p p' → Together C watch Q R code code' p p') :
    ∀ (fuel : Nat) (p p' : Point S), R p p' →
      ∃ fuel', Alike watch Q (C.run code fuel p) (C.run code' fuel' p')
  | 0, _, _, _ => ⟨0, rfl, .none⟩
  | fuel + 1, p, p', related => by
    cases together p p' related with
    | both alike =>
      generalize moves : C.move code p = m at alike
      generalize moves' : C.move code' p' = m' at alike
      cases alike with
      | stop related =>
        refine ⟨1, ?_⟩
        rw [run_of_stop moves, run_of_stop moves']
        exact ⟨rfl, .some related⟩
      | go same related =>
        obtain ⟨fuel', alike⟩ := alike_of_together together fuel _ _ related
        refine ⟨fuel' + 1, ?_⟩
        rw [run_of_go moves, run_of_go moves']
        exact alike.after same
    | first moves hidden _ related =>
      obtain ⟨fuel', alike⟩ := alike_of_together together fuel _ _ related
      refine ⟨fuel', ?_⟩
      rw [run_of_go moves]
      exact alike.after_left hidden
    | second moves' hidden _ related =>
      obtain ⟨fuel', alike⟩ := alike_of_together together (fuel + 1) _ _ related
      refine ⟨fuel' + 1, ?_⟩
      rw [run_of_go moves']
      exact alike.after_right hidden
termination_by fuel _ p' => (fuel, p'.ahead.length)

/-- The other program shows no more. -/
theorem alike_of_together' (together : ∀ p p', R p p' → Together C watch Q R code code' p p')
    (fuel' : Nat) (p p' : Point S) (related : R p p') :
    ∃ fuel, Alike watch Q (C.run code fuel p) (C.run code' fuel' p') := by
  obtain ⟨fuel, alike⟩ := alike_of_together (R := fun q' q => R q q')
    (Q := fun e' e => Q e e') (fun p' p related => (together p p' related).symm) fuel' p' p related
  exact ⟨fuel, alike.symm⟩

end Together

/-! ## Steps -/

section Steps

variable {i : Instr} {c : Command} {rest : List Instr} {label : String} {s : S}
variable {pending : List (List Instr)}

theorem move_of_command (command : i.command? = some c) :
    C.move code ⟨i :: rest, pending, s⟩ = C.obey code i.id c ⟨rest, pending, s⟩ := by
  simp only [move, command]

theorem move_of_no_command (command : i.command? = none) :
    C.move code ⟨i :: rest, pending, s⟩ = .go none ⟨rest, pending, s⟩ := by
  simp only [move, command]

/-- A jump to a label goes there, unless it is a branch that is not taken. -/
theorem obey_of_target? (noCall : c.isCall = false) (target : c.target? = some label) (id : Nat)
    (p : Point S) :
    C.obey code id c p =
      if C.passes c p.state then .go (some ⟨id, c, p.state⟩) p
      else jump code label ⟨id, c, p.state⟩ p := by
  have jumps := Command.isJump_of_target? target
  have stays := Command.isReturn_of_target? target
  simp only [obey, stays, noCall, jumps, target, Bool.false_eq_true, if_false, if_true]

/-- There is nothing from a label on that the program does not declare. -/
theorem behind_eq_nil : behind label code = [] ↔ label ∉ Graph.declared code := by
  simp [behind, Graph.declared, List.dropWhile_eq_nil_iff]

/-- A label that is declared no more than once is found where it stands. -/
theorem behind_of_ledBy (suffix : rest <:+ code) (leads : LedBy label rest)
    (once : (Graph.declared code).count label ≤ 1) : behind label code = rest := by
  obtain ⟨front, rfl⟩ := suffix
  obtain ⟨p, isHead, isLabel⟩ := Option.bind_eq_some_iff.1 leads
  obtain ⟨others, rfl⟩ := List.head?_eq_some_iff.1 isHead
  have elsewhere : ∀ q ∈ front, decide (q.label? ≠ some label) = true := by
    intro q member
    rw [decide_eq_true_eq]
    intro again
    have before : 0 < (Graph.declared front).count label :=
      List.count_pos_iff.2 (List.mem_filterMap.2 ⟨q, member, again⟩)
    unfold Graph.declared at once before
    rw [List.filterMap_append, List.filterMap_cons_some isLabel, List.count_append,
      List.count_cons_self] at once
    omega
  unfold behind
  rw [List.dropWhile_append_of_pos elsewhere, List.dropWhile_cons_of_neg (by simp [isLabel])]

/-- A jump to a label that stands ahead goes there. -/
theorem jump_of_ledBy (suffix : rest <:+ code) (leads : LedBy label rest)
    (once : (Graph.declared code).count label ≤ 1) (here : Executed S) (p : Point S) :
    jump code label here p = .go (some here) { p with ahead := rest } := by
  have found := behind_of_ledBy suffix leads once
  have inhabited : rest ≠ [] := by
    rintro rfl
    contradiction
  rw [jump, found, if_neg inhabited]

theorem suffix_of_cons (suffix : i :: rest <:+ code) : i ∈ code ∧ rest <:+ code :=
  ⟨suffix.subset (List.mem_cons_self ..), (List.suffix_cons i rest).trans suffix⟩

end Steps

end Control

/-! ## The machine -/

namespace Machine

/-- The condition of a branch holds of two values and the flag. -/
def holds (op : Opcode) (x y flag : Word) : Bool :=
  match op with
  | .beq | .beql => x = y
  | .bne | .bnel => x ≠ y
  | .beqz => x = 0
  | .bnez => x ≠ 0
  | .blez => x.sle 0
  | .bgtz => !x.sle 0
  | .bltz => x.slt 0
  | .bgez => !x.slt 0
  | .bc1t => flag ≠ 0
  | .bc1f => flag = 0
  | _ => false

/-- The machine's commands, with every call out of sight. -/
def control : Control State where
  exec := step
  taken c s :=
    let x := value s (c.args.getD 0 (.imm 0))
    let y := value s (c.args.getD 1 (.imm 0))
    c.op?.any (holds · x y (s.regs .flag))
  enters _ _ := false

theorem holds_inverse? {op op' : Opcode} (inverse : op.inverse? = some op') (x y flag : Word) :
    holds op' x y flag = !holds op x y flag := by
  cases op <;> first | contradiction | (cases inverse; simp [holds])

theorem control_opposed : control.Opposed := by
  intro op op' inverse xs label target s
  have same : ∀ i, value s ((xs ++ [Operand.sym target]).getD i (.imm 0)) =
      value s ((xs ++ [Operand.sym label]).getD i (.imm 0)) := by
    intro i
    rcases Nat.lt_trichotomy i xs.length with inside | rfl | outside
    · simp [List.getElem?_append_left inside]
    · simp [value]
    · have missing : ∀ text, (xs ++ [Operand.sym text])[i]? = none := fun text =>
        List.getElem?_eq_none (by simpa using Nat.succ_le_of_lt outside)
      simp [missing]
  simp only [control, Command.ofOpcode, same]
  exact holds_inverse? inverse ..

end Machine

end MipsFlow
