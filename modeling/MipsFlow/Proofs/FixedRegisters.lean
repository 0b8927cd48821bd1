import MipsFlow.Proofs.Effects

/-!
# Definitions of reserved registers

A register may be reserved so that the optimizer does not touch it. Its definitions then stay, in
their order, and none is made up, except for what redundancy elimination does without asking: six of
its rules drop a definition whose value is in the register already, or is only used by the next
command, and one of these turns a shift by zero into a copy. Each rule needs a window of its own
(`Redundancy.Drops`, `Redundancy.Renews`). A definition is lost in no other way than that the run
meets with such a window, with this definition in it as far as it has come.

* `Optimizer.reserved_definitions_survive`: the definitions of a reserved register in the result
  inherit from those in the program; they are all kept just if the run meets with no such window,
  and it meets with none if the program has no definitions of the kinds that the rules drop.
* `Optimizer.reserved_definitions_lost`: a run in which three of them go and one is replaced.
-/

namespace MipsFlow

/-! ## Definitions -/

/-- The operands are the same, but registers may have given way to other ones than `x`, and offsets
may differ. -/
inductive Operand.Alike (x : Reg) : Operand → Operand → Prop
  | same (o : Operand) : Alike x o o
  | reg (r s : Reg) : s ≠ x → Alike x (.reg r) (.reg s)
  | mem (offset offset' : Offset) (base base' : Reg) : base' = base ∨ base' ≠ x →
    Alike x (.mem offset base) (.mem offset' base')

namespace Operand.Alike

variable {o o' o'' : Operand} {x r s : Reg} {n : Int64}

theorem trans (first : Alike x o o') (second : Alike x o' o'') : Alike x o o'' := by
  cases first with
  | same => exact second
  | reg _ _ other =>
    cases second with
    | same => exact .reg _ _ other
    | reg _ _ other' => exact .reg _ _ other'
  | mem _ _ _ _ kept =>
    cases second with
    | same => exact .mem _ _ _ _ kept
    | mem _ _ _ _ kept' =>
      refine .mem _ _ _ _ (kept'.elim (fun same => ?_) Or.inr)
      rwa [same]

theorem withBase (o : Operand) (other : r ≠ x) : Alike x o (o.withBase r) := by
  cases o with
  | reg s => exact .reg s r other
  | mem offset base => exact .mem _ _ _ _ (Or.inr other)
  | imm _ | sym _ => exact .same _

/-- The register has not come in another one's place. -/
theorem of_self (alike : Alike x o (.reg x)) : o = .reg x := by
  cases alike with
  | same => rfl
  | reg _ _ other => exact absurd rfl other

theorem of_reg (alike : Alike x o (.reg r)) : ∃ s, o = .reg s := by
  cases alike <;> exact ⟨_, rfl⟩

theorem of_imm (alike : Alike x o (.imm n)) : o = .imm n := by
  cases alike
  rfl

/-- Nor has it become the base of a place in memory. -/
theorem of_mem {offset : Offset} {base : Reg} (alike : Alike x o (.mem offset base)) :
    ∃ offset' base', o = .mem offset' base' ∧ (base = x → base' = x) := by
  cases alike with
  | same => exact ⟨_, _, rfl, id⟩
  | mem _ _ _ _ kept => exact ⟨_, _, rfl, fun isBase => kept.elim (· ▸ isBase) (absurd isBase)⟩

end Operand.Alike

namespace Command

variable {c d e : Command} {x r : Reg}

/-- The commands write the same registers with the same mnemonic, from operands that are alike. -/
structure Redefines (x : Reg) (c d : Command) : Prop where
  mnemonic : d.mnemonic = c.mnemonic
  defs : d.defs = c.defs
  args : List.Forall₂ (Operand.Alike x) c.args d.args

theorem Redefines.refl (x : Reg) (c : Command) : c.Redefines x c :=
  ⟨rfl, rfl, List.forall₂_same.2 fun o _ => .same o⟩

theorem Redefines.trans (first : c.Redefines x d) (second : d.Redefines x e) : c.Redefines x e := by
  refine ⟨second.mnemonic.trans first.mnemonic, second.defs.trans first.defs, ?_⟩
  have alike : ∀ {a b c : List Operand}, List.Forall₂ (Operand.Alike x) a b →
      List.Forall₂ (Operand.Alike x) b c → List.Forall₂ (Operand.Alike x) a c := by
    intro a b c first second
    induction first generalizing c with
    | nil => exact second
    | cons here _ ih =>
      obtain ⟨_, _, there, rest, rfl⟩ := List.forall₂_cons_left_iff.1 second
      exact .cons (here.trans there) (ih rest)
  exact alike first.args second.args

theorem Redefines.has (redefines : c.Redefines x d) (trait : Trait) :
    d.has trait = c.has trait := by
  simp only [Command.has, op?, redefines.mnemonic]

theorem Redefines.op? (redefines : c.Redefines x d) : c.op? = d.op? := by
  simp only [Command.op?, redefines.mnemonic]

/-- A shift by zero. -/
def IsIdleShift (c : Command) : Prop :=
  c.isShift = true ∧ ∃ dst src, c.args = [.reg dst, .reg src, .imm 0]

/-- A form writes no operand, or one and nothing besides. -/
theorem defs_shape {form : Form} (known : c.form? = some form) :
    form.defs = [] ∨ form.impliedDefs = [] ∧ ∃ i, form.defs = [i] := by
  rcases form?_eq_some known with ⟨rfl, -⟩ | ⟨op, -, entry⟩
  · exact Or.inl rfl
  · rcases Family.form?_shape entry with ⟨none, -⟩ | ⟨first, alone, -⟩ | ⟨second, alone, -⟩
    · exact Or.inl none
    · exact Or.inr ⟨alone, _, first⟩
    · exact Or.inr ⟨alone, _, second⟩

/-- What is loaded is the first operand. -/
theorem mem_defs_of_define {o : Operand} {args : List Operand} (known : c.form? = some .define)
    (shape : c.args = o :: args) : x ∈ c.defs ↔ o = .reg x := by
  simp only [defs, known, regsAt, Form.define, shape, List.filterMap_cons, List.filterMap_nil,
    List.append_nil]
  cases o <;> simp [Operand.reg?, eq_comm]

theorem defs_of_shift {dst src : Reg} {n : Int64} (shifts : c.isShift = true)
    (args : c.args = [.reg dst, .reg src, .imm n]) : c.defs = [dst] := by
  rw [defs, form?_of_isShift shifts args]
  simp [regsAt, Form.binary, args, Operand.reg?]
  rfl

/-- The destination is the same operand after renaming, if it is another register. -/
theorem getElem?_renameReads_of_reg {a b : Reg} {i : Nat} (other : r ≠ a) (other' : r ≠ b)
    (here : c.args[i]? = some (.reg r) ∨ (c.renameReads a b).args[i]? = some (.reg r)) :
    (c.renameReads a b).args[i]? = c.args[i]? := by
  rw [getElem?_renameReads] at here ⊢
  cases isArg : c.args[i]? with
  | none => rfl
  | some o =>
    rw [isArg, Option.map_some] at here
    rw [Option.map_some]
    split
    · next read =>
      rw [if_pos read] at here
      exfalso
      rcases here with old | new
      · obtain rfl := Option.some.inj old
        simp only [readAt?] at read
        split at read
        · exact other (Option.some.inj read)
        · contradiction
      · cases o with
        | reg _ => exact other' (Operand.reg.inj (Option.some.inj new)).symm
        | imm _ | mem _ _ | sym _ => simp [Operand.withBase] at new
    · rfl

/-- What a command defines stays the same when registers are renamed that it does not define. -/
theorem defs_renameReads_of_mem {a b : Reg} (other : r ≠ a) (other' : r ≠ b)
    (written : r ∈ c.defs ∨ r ∈ (c.renameReads a b).defs) :
    (c.renameReads a b).defs = c.defs := by
  have isForm : (c.renameReads a b).form? = c.form? := form?_renameReads
  cases known : c.form? with
  | none => simp [defs, isForm, known]
  | some form =>
    simp only [defs, isForm, known]
    rcases defs_shape known with none | ⟨alone, i, only⟩
    · simp [none, regsAt]
    · have here : c.args[i]? = some (.reg r) ∨ (c.renameReads a b).args[i]? = some (.reg r) := by
        have isReg {o : Option Operand} (target : o.bind Operand.reg? = some r) :
            o = some (.reg r) := by
          obtain ⟨x, rfl, isReg⟩ := Option.bind_eq_some_iff.1 target
          cases x <;> cases isReg
          rfl
        refine written.imp (fun old => isReg ?_) fun new => isReg ?_
        · simpa [mem_defs, known, only, alone, regsAt, eq_comm] using old
        · simpa [mem_defs, isForm, known, only, alone, regsAt, eq_comm] using new
      simp only [only, alone, regsAt, List.filterMap_cons, List.filterMap_nil,
        getElem?_renameReads_of_reg other other' here]

theorem redefines_renameReads {a b : Reg} (other : b ≠ x)
    (defs : (c.renameReads a b).defs = c.defs) : c.Redefines x (c.renameReads a b) := by
  refine ⟨rfl, defs, List.forall₂_iff_get.2 ⟨length_renameReads.symm, fun i inside inside' => ?_⟩⟩
  have here := getElem?_renameReads (c := c) (a := a) (b := b) i
  rw [List.getElem?_eq_getElem inside, List.getElem?_eq_getElem inside', Option.map_some] at here
  simp only [List.get_eq_getElem, Option.some.inj here]
  split
  · exact .withBase _ other
  · exact .same _

/-- Exchanging an operand for one that is alike. -/
theorem forall₂_alike_set {args : List Operand} {i : Nat} {o o' : Operand}
    (here : args[i]? = some o) (alike : Operand.Alike x o o') :
    List.Forall₂ (Operand.Alike x) args (args.set i o') := by
  induction args generalizing i with
  | nil => simp at here
  | cons y args ih =>
    cases i with
    | zero =>
      obtain rfl := Option.some.inj here
      exact .cons alike (List.forall₂_same.2 fun o _ => .same o)
    | succ i => exact .cons (.same y) (ih here)

namespace Redefines

variable {dst src base : Reg} {o : Operand} {n : Int64} {op : Opcode}

/-- Two operands stay two. -/
theorem of_pair {o' : Operand} (redefines : c.Redefines x d) (args : d.args = [o, o']) :
    ∃ y y', c.args = [y, y'] ∧ Operand.Alike x y o ∧ Operand.Alike x y' o' := by
  have alike := redefines.args
  simp only [args, List.forall₂_cons_right_iff, List.forall₂_nil_right_iff] at alike
  obtain ⟨y, _, first, ⟨y', _, second, rfl, rfl⟩, isArgs⟩ := alike
  exact ⟨y, y', isArgs, first, second⟩

/-- Two registers and a literal stay such. -/
theorem of_sum (redefines : c.Redefines x d) (args : d.args = [.reg dst, .reg src, .imm n]) :
    ∃ dst' src', c.args = [.reg dst', .reg src', .imm n] ∧ (dst = x → dst' = x) ∧
      (src = x → src' = x) := by
  have alike := redefines.args
  simp only [args, List.forall₂_cons_right_iff, List.forall₂_nil_right_iff] at alike
  obtain ⟨_, _, first, ⟨_, _, second, ⟨_, _, third, rfl, rfl⟩, rfl⟩, isArgs⟩ := alike
  obtain rfl := third.of_imm
  obtain ⟨dst', rfl⟩ := first.of_reg
  obtain ⟨src', rfl⟩ := second.of_reg
  refine ⟨dst', src', isArgs, ?_, ?_⟩
  · rintro rfl
    exact Operand.reg.inj first.of_self
  · rintro rfl
    exact Operand.reg.inj second.of_self

/-- What becomes a copy has been one to the same register. -/
theorem of_copy (redefines : c.Redefines x (copy dst src)) : ∃ src', c = .copy dst src' := by
  obtain ⟨_, _, args, first, second⟩ := redefines.of_pair rfl
  obtain ⟨dst', rfl⟩ := first.of_reg
  obtain ⟨src', rfl⟩ := second.of_reg
  have isCopy : c = .copy dst' src' := eq_ofOpcode (redefines.op?.trans rfl) args
  have defs := redefines.defs
  rw [isCopy] at defs
  obtain rfl : dst = dst' := by simpa using defs
  exact ⟨src', isCopy⟩

theorem of_isIdleShift (redefines : c.Redefines x d) (idle : d.IsIdleShift) : c.IsIdleShift := by
  obtain ⟨shifts, dst, src, args⟩ := idle
  obtain ⟨dst', src', args', -⟩ := redefines.of_sum args
  exact ⟨(redefines.has .shift).symm.trans shifts, dst', src', args'⟩

/-- What becomes a load has been one to the same register. -/
theorem of_load {offset : Offset} (redefines : c.Redefines x d)
    (args : d.args = [.reg x, .mem offset base]) :
    ∃ offset' base', c.args = [.reg x, .mem offset' base'] ∧ (base = x → base' = x) := by
  obtain ⟨_, _, args', first, second⟩ := redefines.of_pair args
  obtain rfl := first.of_self
  obtain ⟨offset', base', rfl, kept⟩ := second.of_mem
  exact ⟨offset', base', args', kept⟩

theorem readsMemory {offset : Offset} (redefines : c.Redefines x d)
    (loads : d.readsMemory = true) (args : c.args = [o, .mem offset base]) :
    c.readsMemory = true := by
  simp only [Command.readsMemory, Bool.and_eq_true] at loads ⊢
  rw [args, redefines.op?]
  exact ⟨⟨(redefines.has .load).symm.trans loads.1.1, loads.1.2⟩, rfl⟩

end Redefines

end Command

/-- The second instruction is the first one as a definition. -/
structure Instr.Redefines (x : Reg) (p q : Instr) : Prop where
  id : q.id = p.id
  comment : q.comment = p.comment
  command : ∃ c d, p.command? = some c ∧ q.command? = some d ∧ c.Redefines x d

namespace Instr.Redefines

variable {x : Reg} {p q r : Instr} {c d : Command}

theorem refl (x : Reg) (command : p.command? = some c) : p.Redefines x p :=
  ⟨rfl, rfl, c, c, command, command, .refl x c⟩

theorem trans (first : p.Redefines x q) (second : q.Redefines x r) : p.Redefines x r := by
  obtain ⟨c, d, command, isMiddle, redefines⟩ := first.command
  obtain ⟨d', e, isMiddle', command', redefines'⟩ := second.command
  obtain rfl := Option.some.inj (isMiddle.symm.trans isMiddle')
  exact ⟨second.id.trans first.id, second.comment.trans first.comment, c, e, command, command',
    redefines.trans redefines'⟩

/-- What it has been when it is this now. -/
theorem source (redefines : p.Redefines x q) (command : q.command? = some d) :
    ∃ c, p.command? = some c ∧ c.Redefines x d := by
  obtain ⟨c, d', isCommand, command', redefines⟩ := redefines.command
  obtain rfl := Option.some.inj (command.symm.trans command')
  exact ⟨c, isCommand, redefines⟩

theorem isShift (redefines : p.Redefines x q) :
    q.isCommandWith Command.isShift = p.isCommandWith Command.isShift := by
  obtain ⟨c, d, command, command', redefines⟩ := redefines.command
  rw [isCommandWith_of_command command, isCommandWith_of_command command']
  exact redefines.has .shift

end Instr.Redefines

theorem Instr.writes_of_command {p : Instr} {c : Command} (command : p.command? = some c)
    (x : Reg) : p.writes x = c.defs.contains x := by
  rw [writes, defs, command, Option.elim_some]

/-! ## Windows in which a definition goes -/

namespace Redundancy

/-- When the second list takes the place of the first one, a definition of `x` is dropped. There is
a case for each rule, with what it asks for. -/
inductive Drops (x : Reg) : List Instr → List Instr → Instr → Prop
  | selfCopy {p : Instr} : p.command? = some (.copy x x) → Drops x [p] [] p
  | readThrough {p q : Instr} {src : Reg} {d : Command} : p.command? = some (.copy x src) →
    q.command? = some d → d.isForeign = false → d.isJump = false → d.args[0]? = some (.reg x) →
    d.args[1]? = some (.reg x) → x ∈ d.defs → d.readSites.filter (·.reg = x) = [⟨1, x⟩] →
    Drops x [p, q] [q.withCommand { d with args := d.args.set 1 (.reg src) }] p
  | copyBack {p q : Instr} {a : Reg} : p.command? = some (.copy a x) →
    q.command? = some (.copy x a) → Drops x [p, q] [p] q
  | reload {p q : Instr} {store load : Opcode} {offset : Offset} {base : Reg} :
    matchingLoad? store = some load →
    p.command? = some (.ofOpcode store [.reg x, .mem offset base]) →
    q.command? = some (.ofOpcode load [.reg x, .mem offset base]) → Drops x [p, q] [p] q
  | shift {p : Instr} {c : Command} : p.command? = some c → c.isShift = true →
    c.args = [.reg x, .reg x, .imm 0] → x.isZero = false → Drops x [p] [] p
  | offset {p q : Instr} {op : Opcode} {n m : Int64} {d : Command} : op = .addu ∨ op = .addiu →
    p.command? = some (.ofOpcode op [.reg x, .reg x, .imm n]) → q.command? = some d →
    d.readsMemory = true → d.args = [.reg x, .mem (.number m) x] →
    fitsSigned16 (m + n).toInt = true →
    Drops x [p, q] [q.withCommand { d with args := [.reg x, .mem (.number (m + n)) x] }] p

/-- A shift of another register by zero into `x` becomes a copy, which is a new instruction. -/
inductive Renews (x : Reg) (p : Instr) : Instr → Prop
  | shift {c : Command} {src : Reg} (id : Nat) : p.command? = some c → c.isShift = true →
    c.args = [.reg x, .reg src, .imm 0] → src ≠ x → x.isZero = false →
    Renews x p (.ofCommand id (.copy x src))

/-- When the second list takes the place of the first one, a definition of `x` is dropped or
renewed. -/
inductive Alters (x : Reg) : List Instr → List Instr → Prop
  | drops {window repl : List Instr} {p : Instr} : Drops x window repl p → Alters x window repl
  | renews {p q : Instr} : Renews x p q → Alters x [p] [q]

end Redundancy

open Redundancy (Drops Renews Alters)

namespace Instr

variable {x : Reg} {met : List Instr → List Instr → Prop} {p q r : Instr}

/-- The second instruction stands for the first one as a definition of `x`: it is the same one, with
other registers to read perhaps, or has been renewed where that has been met with. -/
inductive Restates (x : Reg) (met : List Instr → List Instr → Prop) (p q : Instr) : Prop
  | same : p.Redefines x q → Restates x met p q
  | renewed (p' q' : Instr) : p.Redefines x p' → Renews x p' q' → met [p'] [q'] →
    q'.Redefines x q → Restates x met p q

/-- What stands for the instruction is dropped from a window that has been met with. -/
inductive Lost (x : Reg) (met : List Instr → List Instr → Prop) (p : Instr) : Prop
  | dropped (q : Instr) (window repl : List Instr) : p.Restates x met q → Drops x window repl q →
    met window repl → Lost x met p

/-- A renewed definition is a copy from now on. -/
theorem not_renews_of_renews {p' q' : Instr} (renews : Renews x p q)
    (redefines : q.Redefines x p') : ¬ Renews x p' q' := by
  rintro ⟨id', command', shifts, -⟩
  cases renews with
  | shift id =>
    obtain ⟨c, isCopy, redefines⟩ := redefines.source command'
    cases isCopy
    have isCopy := redefines.has .shift
    exact absurd (isCopy.symm.trans shifts) Bool.false_ne_true

theorem Restates.trans (first : p.Restates x met q) (second : q.Restates x met r) :
    p.Restates x met r := by
  cases first with
  | same redefines =>
    cases second with
    | same redefines' => exact .same (redefines.trans redefines')
    | renewed p' q' before renews isMet after =>
      exact .renewed p' q' (redefines.trans before) renews isMet after
  | renewed p' q' before renews isMet after =>
    cases second with
    | same redefines => exact .renewed p' q' before renews isMet (after.trans redefines)
    | renewed p'' q'' before' renews' =>
      exact absurd renews' (not_renews_of_renews renews (after.trans before'))

theorem Lost.of_restates (restates : p.Restates x met q) (lost : q.Lost x met) :
    p.Lost x met := by
  obtain ⟨r, window, repl, restates', drops, isMet⟩ := lost
  exact ⟨r, window, repl, restates.trans restates', drops, isMet⟩

end Instr

/-- The definitions of a register are under protection, as far as redundancy elimination goes. -/
def Ward.definitions (x : Reg) (met : List Instr → List Instr → Prop) : Ward where
  covers p := p.writes x
  Heir := Instr.Restates x met
  Lost := Instr.Lost x met
  heirs := Instr.Restates.trans
  loses := Instr.Lost.of_restates
  bare {p q} same := by
    have command : q.command? = p.command? := by
      simp only [Instr.command?, Instr.content_of_bare same]
    refine ⟨by simp only [Instr.writes, Instr.defs, command], fun written => ?_⟩
    cases isCommand : p.command? with
    | none => simp [Instr.writes, Instr.defs, isCommand] at written
    | some c =>
      exact .same ⟨Instr.id_of_bare same, Instr.comment_of_bare same, c, c, isCommand,
        command.trans isCommand, .refl x c⟩

namespace Ward

variable {x : Reg} {met : List Instr → List Instr → Prop} {p q : Instr} {c d : Command}

theorem covers_definitions (command : p.command? = some c) :
    (definitions x met).covers p = c.defs.contains x :=
  Instr.writes_of_command command x

/-- What defines other registers is not covered. -/
theorem not_covers_definitions (command : p.command? = some c) (unwritten : x ∉ c.defs) :
    (definitions x met).covers p = false := by
  simpa [covers_definitions command] using unwritten

/-- A command is exchanged for one that defines the same. -/
theorem keeps_withCommand (command : p.command? = some c) (defs : d.defs = c.defs)
    (redefines : x ∈ c.defs → c.Redefines x d) :
    (definitions x met).Keeps [p] [p.withCommand d] := by
  have command' : (p.withCommand d).command? = some d := rfl
  refine .of_heir ?_ fun covered => ?_
  · rw [covers_definitions command, covers_definitions command', defs]
  · rw [covers_definitions command, List.contains_iff_mem] at covered
    exact .same ⟨rfl, rfl, c, d, command, command', redefines covered⟩

end Ward

/-! ## Rules -/

namespace Redundancy

variable {v : View} {next : Nat} {x : Reg} {met : List Instr → List Instr → Prop} {p q : Instr}
variable {c d : Command} {rest window repl : List Instr} {w : Substitution}

/-- Behind another destination, a command writes this one or what it has written. -/
theorem mem_defs_redirected {t a r : Reg} {args : List Operand} (shape : c.args = .reg t :: args)
    (form : Command.form? { c with args := .reg a :: args } = c.form?)
    (written : r ∈ Command.defs { c with args := .reg a :: args }) : r = a ∨ r ∈ c.defs := by
  obtain ⟨f, known, isDef⟩ := Command.mem_defs.1 written
  rw [form] at known
  refine isDef.elim (fun named => ?_) fun implied =>
    Or.inr (Command.mem_defs.2 ⟨f, known, Or.inr implied⟩)
  obtain ⟨i, position, target⟩ := List.mem_filterMap.1 named
  cases i with
  | zero => exact Or.inl (Option.some.inj target).symm
  | succ i =>
    refine Or.inr (Command.mem_defs.2
      ⟨f, known, Or.inl (List.mem_filterMap.2 ⟨i + 1, position, ?_⟩)⟩)
    rw [shape]
    exact target

/-- A command that a copy is folded into defines the same register as before, and no other. -/
theorem keeps_folded {a b : Reg} (command : q.command? = some d)
    (first : d.args[0]? = some (.reg a)) (second : d.args[1]? = some (.reg a))
    (written : a ∈ d.defs) (sites : d.readSites.filter (·.reg = a) = [⟨1, a⟩]) :
    (Ward.definitions x met).Keeps [q]
      [q.withCommand { d with args := d.args.set 1 (.reg b) }] := by
  have defs := defs_folded (b := b) first second written sites
  refine Ward.keeps_withCommand command defs fun isDef => ⟨rfl, defs, ?_⟩
  refine Command.forall₂_alike_set second ?_
  obtain rfl : a = x := by
    obtain ⟨form, isForm, isFirst, -, -⟩ := folded_form first second written sites
    rcases Command.defs_shape isForm with none | ⟨alone, -⟩
    · cases none.symm.trans isFirst
    · simpa [Command.defs, isForm, isFirst, alone, Command.regsAt, first, Operand.reg?, eq_comm]
        using isDef
  by_cases same : b = a
  · exact same ▸ .same _
  · exact .reg a b same

/-- A load with another offset loads the same register. -/
theorem keeps_offset {dst : Operand} {base : Reg} {m n : Offset} (command : q.command? = some d)
    (loads : d.readsMemory = true) (args : d.args = [dst, .mem m base]) :
    (Ward.definitions x met).Keeps [q]
      [q.withCommand { d with args := [dst, .mem n base] }] := by
  obtain ⟨load, -, -, -, isForm, -⟩ := readsMemory_form loads args
  have isForm' : ({ d with args := [dst, .mem n base] } : Command).form? = some .define :=
    (Command.form?_exchange_second args).trans isForm
  have defs : Command.defs { d with args := [dst, .mem n base] } = d.defs := by
    simp only [Command.defs, isForm, isForm', Command.regsAt, Form.define, args]
    rfl
  refine Ward.keeps_withCommand command defs fun _ => ⟨rfl, defs, ?_⟩
  rw [args]
  exact .cons (.same dst) (.cons (.mem m n base base (Or.inl rfl)) .nil)

/-- But for the definition that is dropped, the definitions in the window are kept. -/
theorem Drops.parts (drops : Drops x window repl p) :
    p.writes x = true ∧ ∃ before after after', window = before ++ p :: after ∧
      repl = before ++ after' ∧ ∀ met, (Ward.definitions x met).Keeps after after' := by
  have writes {p : Instr} {c : Command} (command : p.command? = some c) (written : x ∈ c.defs) :
      p.writes x = true := by
    rwa [Instr.writes_of_command command, List.contains_iff_mem]
  cases drops with
  | selfCopy command => exact ⟨writes command (by simp), [], [], [], rfl, rfl, fun _ => .refl ..⟩
  | @readThrough _ q src d command command' _ _ first second written sites =>
    exact ⟨writes command (by simp), [], [q], _, rfl, rfl, fun _ =>
      keeps_folded command' first second written sites⟩
  | @copyBack q _ _ _ command =>
    exact ⟨writes command (by simp), [q], [], [], rfl, rfl, fun _ => .refl ..⟩
  | @reload q _ store load offset base undoes stores command =>
    refine ⟨writes command ?_, [q], [], [], rfl, rfl, fun _ => .refl ..⟩
    have loads : (Command.ofOpcode load [.reg x, .mem offset base]).isLoad = true :=
      (isLoad_of_matchingLoad? (Command.op?_ofOpcode store []) rfl undoes).2
    exact (Command.mem_defs_of_define (Command.form?_of_isLoad loads rfl) rfl).2 rfl
  | shift command shifts args =>
    refine ⟨writes command ?_, [], [], [], rfl, rfl, fun _ => .refl ..⟩
    rw [Command.defs_of_shift shifts args]
    exact List.mem_singleton_self x
  | @offset _ q op n m d isOp command command' loads args _ =>
    refine ⟨writes command ?_, [], [q], _, rfl, rfl, fun _ => keeps_offset command' loads args⟩
    rcases isOp with rfl | rfl <;> exact List.mem_singleton_self x

/-- A dropped definition may be lost if its window is met with. -/
theorem Drops.keeps (drops : Drops x window repl p) (isMet : met window repl) :
    (Ward.definitions x met).Keeps window repl := by
  obtain ⟨written, before, after, after', isWindow, isRepl, kept⟩ := drops.parts
  have lost : (Ward.definitions x met).Keeps [p] [] := by
    refine .of_lost fun _ => ⟨p, window, repl, .same ?_, drops, isMet⟩
    cases command : p.command? with
    | none => simp [Instr.writes, Instr.defs, command] at written
    | some c => exact .refl x command
  rw [isWindow, isRepl]
  exact (Ward.Keeps.refl _ before).append (lost.append (kept met))

section Rules

variable (command : p.command? = some c) (isMet : met ((p :: rest).take w.count) w.repl)

/-- What defines other registers may go. -/
theorem keeps_none (command : p.command? = some c) (unwritten : x ∉ c.defs) :
    (Ward.definitions x met).Keeps [p] [] :=
  .of_none (List.forall_mem_singleton.2 (Ward.not_covers_definitions command unwritten))
    (List.forall_mem_nil _)

include command isMet

theorem dropSelfCopy_keeps (applies : dropSelfCopy v next p c rest = some w) :
    (Ward.definitions x met).Keeps ((p :: rest).take w.count) w.repl := by
  obtain ⟨a, rfl, count, repl, -⟩ := dropSelfCopy_eq_some applies
  rw [count, repl] at isMet ⊢
  by_cases here : x = a
  · subst here
    exact Drops.keeps (.selfCopy command) isMet
  · exact keeps_none command (by simpa using here)

theorem readThroughCopy_keeps (applies : readThroughCopy v next p c rest = some w) :
    (Ward.definitions x met).Keeps ((p :: rest).take w.count) w.repl := by
  obtain ⟨a, b, q, others, d, rfl, rfl, command', known, stays, first, second, written, sites,
    count, repl, -⟩ := readThroughCopy_eq_some applies
  rw [count, repl] at isMet ⊢
  by_cases here : x = a
  · subst here
    exact Drops.keeps (.readThrough command command' known stays first second written sites) isMet
  · exact (keeps_none command (by simpa using here)).append
      (keeps_folded command' first second written sites)

omit isMet in
/-- An argument is computed in place only if neither register is reserved. -/
theorem computeArgument_keeps (reserved : x ∈ v.reserved)
    (applies : computeArgument v next p c rest = some w) :
    (Ward.definitions x met).Keeps ((p :: rest).take w.count) w.repl := by
  obtain ⟨t, args, a, q, r, others, call, shape, rfl, command', -, -, pure, defs, argument, -,
    free, dead, count, repl, -⟩ := computeArgument_eq_some applies
  rw [count, repl]
  have unneeded : t ∉ v.reserved := by
    simp only [View.dead, Bool.and_eq_true, Bool.not_eq_true', Bool.eq_false_iff, ne_eq,
      FactSet.contains_iff] at dead
    exact dead.1
  have other : x ≠ t := fun same => unneeded (same ▸ reserved)
  have other' : x ≠ a := fun same => free (same ▸ reserved)
  have new : x ∉ Command.defs { c with args := .reg a :: args } := fun written => by
    rcases mem_defs_redirected shape (form?_redirected shape defs argument) written with same | old
    · exact other' same
    · exact other (by simpa [defs] using old)
  exact .of_none (List.forall_mem_cons.2
    ⟨Ward.not_covers_definitions command (by simpa [defs] using other),
      List.forall_mem_singleton.2 (Ward.not_covers_definitions command' (by simpa using other'))⟩)
    (List.forall_mem_singleton.2 (Ward.not_covers_definitions rfl new))

theorem dropCopyBack_keeps (applies : dropCopyBack v next p c rest = some w) :
    (Ward.definitions x met).Keeps ((p :: rest).take w.count) w.repl := by
  obtain ⟨a, b, q, others, rfl, rfl, command', count, repl, -⟩ := dropCopyBack_eq_some applies
  rw [count, repl] at isMet ⊢
  by_cases here : x = b
  · subst here
    exact Drops.keeps (.copyBack command command') isMet
  · exact (Ward.Keeps.refl _ [p]).append (keeps_none command' (by simpa using here))

theorem dropReload_keeps (applies : dropReload v next p c rest = some w) :
    (Ward.definitions x met).Keeps ((p :: rest).take w.count) w.repl := by
  obtain ⟨store, load, value, offset, base, q, others, d, stores, undoes, args, rfl, command',
    isLoad, sameArgs, count, repl, -⟩ := dropReload_eq_some applies
  rw [count, repl] at isMet ⊢
  have args' := sameArgs.trans args
  have defines : x ∈ d.defs ↔ value = .reg x :=
    Command.mem_defs_of_define
      (Command.form?_of_isLoad (isLoad_of_matchingLoad? stores isLoad undoes).2 args') args'
  by_cases here : value = .reg x
  · subst here
    rw [Command.eq_ofOpcode stores args] at command
    rw [Command.eq_ofOpcode isLoad args'] at command'
    exact Drops.keeps (.reload undoes command command') isMet
  · exact (Ward.Keeps.refl _ [p]).append (keeps_none command' fun isDef => here (defines.1 isDef))

theorem simplifyShift_keeps (applies : simplifyShift v next p c rest = some w) :
    (Ward.definitions x met).Keeps ((p :: rest).take w.count) w.repl := by
  obtain ⟨a, b, shifts, args, nonzero, count, outcome⟩ := simplifyShift_eq_some applies
  have defs := Command.defs_of_shift shifts args
  rw [count] at isMet ⊢
  rcases outcome with ⟨rfl, repl, -⟩ | ⟨other, repl, -⟩
  · rw [repl] at isMet ⊢
    by_cases here : x = a
    · subst here
      exact Drops.keeps (.shift command shifts args nonzero) isMet
    · exact keeps_none command (by simpa [defs] using here)
  · rw [repl] at isMet ⊢
    by_cases here : x = a
    · subst here
      refine .of_heir ?_ fun _ => .renewed p _ (.refl x command)
        (.shift next command shifts args (Ne.symm other) nonzero) isMet (.refl x rfl)
      rw [Ward.covers_definitions command, defs]
      rfl
    · exact .of_none
        (List.forall_mem_singleton.2 (Ward.not_covers_definitions command (by simpa [defs])))
        (List.forall_mem_singleton.2 (Ward.not_covers_definitions rfl (by simpa)))

theorem foldOffset_keeps (reserved : x ∈ v.reserved)
    (applies : foldOffset v next p c rest = some w) :
    (Ward.definitions x met).Keeps ((p :: rest).take w.count) w.repl := by
  obtain ⟨a, n, dst, m, q, others, d, args, isOp, rfl, command', loads, args', unneeded, count,
    repl, -, fits⟩ := foldOffset_eq_some applies
  rw [count, repl] at isMet ⊢
  obtain ⟨op, adds, isSum⟩ : ∃ op, (op = .addu ∨ op = .addiu) ∧
      c = .ofOpcode op [.reg a, .reg a, .imm n] := by
    rcases isOp with isOp | isOp
    · exact ⟨_, Or.inl rfl, Command.eq_ofOpcode isOp args⟩
    · exact ⟨_, Or.inr rfl, Command.eq_ofOpcode isOp args⟩
  by_cases here : x = a
  · subst here
    -- a reserved register is never dead
    obtain rfl : dst = .reg x := unneeded.resolve_right fun dead => by
      simp [View.dead, FactSet.contains_iff.2 reserved] at dead
    exact Drops.keeps (.offset adds (command.trans (congrArg some isSum)) command' loads args'
      fits) isMet
  · have unwritten : x ∉ c.defs := by
      rw [isSum]
      rcases adds with rfl | rfl <;> exact fun written => here (List.mem_singleton.1 written)
    exact (keeps_none command unwritten).append (keeps_offset command' loads args')

/-- The rules drop definitions of a reserved register in the windows for that, and keep the
others. -/
theorem rule_keeps_definitions (reserved : x ∈ v.reserved) {rule : Rule} (isRule : rule ∈ rules)
    (applies : rule v next p c rest = some w) :
    (Ward.definitions x met).Keeps ((p :: rest).take w.count) w.repl := by
  simp only [rules, List.mem_cons, List.not_mem_nil, or_false] at isRule
  rcases isRule with rfl | rfl | rfl | rfl | rfl | rfl | rfl
  · exact dropSelfCopy_keeps command isMet applies
  · exact readThroughCopy_keeps command isMet applies
  · exact computeArgument_keeps command reserved applies
  · exact dropCopyBack_keeps command isMet applies
  · exact dropReload_keeps command isMet applies
  · exact simplifyShift_keeps command isMet applies
  · exact foldOffset_keeps command isMet reserved applies

end Rules

end Redundancy

/-! ## What there is to lose -/

/-- Among definitions, shifts can be lost in two ways: they may be renewed first. -/
def Instr.stock (definitions : List Instr) : Nat :=
  definitions.length + definitions.countP (·.isCommandWith Command.isShift)

namespace Instr

variable {x : Reg} {met : List Instr → List Instr → Prop} {p q : Instr} {a b : List Instr}

theorem stock_append (a b : List Instr) : stock (a ++ b) = stock a + stock b := by
  simp only [stock, List.length_append, List.countP_append]
  omega

theorem stock_cons (p : Instr) (a : List Instr) :
    stock (p :: a) = 1 + (p.isCommandWith Command.isShift).toNat + stock a := by
  simp only [stock, List.length_cons, List.countP_cons]
  cases p.isCommandWith Command.isShift with
  | false => simp only [Bool.toNat_false, Bool.false_eq_true, if_false]; omega
  | true => simp only [Bool.toNat_true, if_true]; omega

theorem Restates.isShift (restates : p.Restates x met q) :
    (q.isCommandWith Command.isShift).toNat ≤ (p.isCommandWith Command.isShift).toNat := by
  cases restates with
  | same redefines => rw [redefines.isShift]
  | renewed p' q' before renews =>
    cases renews with
    | shift id command shifts =>
      rw [← before.isShift, isCommandWith_of_command command, shifts]
      exact Bool.toNat_le _

theorem stock_le_of_inherits (inherits : Inherits (Restates x met) (Lost x met) a b) :
    stock b ≤ stock a := by
  induction inherits with
  | nil => exact Nat.le_refl _
  | keep here _ ih =>
    rw [stock_cons, stock_cons]
    have := here.isShift
    omega
  | lose _ _ ih =>
    rw [stock_cons]
    omega

theorem stock_eq_of_redefines (each : List.Forall₂ (Instr.Redefines x) a b) :
    stock b = stock a := by
  induction each with
  | nil => rfl
  | cons here _ ih => rw [stock_cons, stock_cons, here.isShift, ih]

end Instr

/-- An altered window has less to lose. -/
theorem Redundancy.Alters.stock_lt {x : Reg} {window repl : List Instr}
    (alters : Alters x window repl) :
    Instr.stock (repl.filter (·.writes x)) < Instr.stock (window.filter (·.writes x)) := by
  cases alters with
  | drops drops =>
    obtain ⟨written, before, after, after', rfl, rfl, kept⟩ := drops.parts
    have fewer : Instr.stock (after'.filter (·.writes x)) ≤
        Instr.stock (after.filter (·.writes x)) :=
      Instr.stock_le_of_inherits (kept fun _ _ => True)
    simp only [List.filter_append, List.filter_cons, written, if_true, Instr.stock_append,
      Instr.stock_cons]
    omega
  | @renews p q renews =>
    cases renews with
    | @shift c src id command shifts args =>
      have written : p.writes x = true := by
        rw [Instr.writes_of_command command, Command.defs_of_shift shifts args]
        simp
      have written' : (Instr.ofCommand id (.copy x src)).writes x = true := by
        simp [Instr.writes_of_command (Instr.command?_ofCommand id (.copy x src))]
      have idle : (Instr.ofCommand id (.copy x src)).isCommandWith Command.isShift = false := rfl
      simp only [List.filter_cons, written, written', if_true, Instr.stock_cons, idle,
        Instr.isCommandWith_of_command command, shifts]
      exact Nat.lt_of_sub_eq_succ rfl

/-! ## Where the definitions come from -/

/-- In the code, the command is a definition of `x` of a kind that redundancy elimination drops. An
increment is only dropped if there is a load of `x` through `x`, and a load only if there is a store
that it may undo. -/
inductive Command.IsFleeting (x : Reg) (code : List Instr) (c : Command) : Prop
  | copy (src : Reg) : c = .copy x src → IsFleeting x code c
  | shift : c.IsIdleShift → IsFleeting x code c
  | reload (store load : Opcode) (offset : Offset) (base : Reg) :
    Redundancy.matchingLoad? store = some load → c = .ofOpcode load [.reg x, .mem offset base] →
    (∃ q ∈ code, ∃ d, q.command? = some d ∧ d.op? = some store) → IsFleeting x code c
  | increment (op : Opcode) (n : Int64) : op = .addu ∨ op = .addiu →
    c = .ofOpcode op [.reg x, .reg x, .imm n] →
    (∃ q ∈ code, ∃ d offset, q.command? = some d ∧ d.readsMemory = true ∧
      d.args = [.reg x, .mem offset x]) → IsFleeting x code c

/-- The instruction is a definition of `x` of a kind that may be lost. -/
def Instr.IsFleeting (x : Reg) (code : List Instr) (p : Instr) : Prop :=
  p.writes x = true ∧ ∃ c, p.command? = some c ∧ c.IsFleeting x code

namespace Optimizer

variable {o : Options} {program : Program} {final : State} {x : Reg} {window repl : List Instr}
variable {p q : Instr}

/-- The other passes keep the definitions of a reserved register. -/
theorem definitions_respected {reserved : FactSet Reg} (isReserved : x ∈ reserved)
    (met : List Instr → List Instr → Prop) :
    (Ward.definitions x met).Respected reserved met where
  idle {p c} command _ free := by
    rw [Ward.covers_definitions command, Bool.eq_false_iff]
    exact fun written => free x (List.contains_iff_mem.1 written) isReserved
  rule same command isRule applies isMet :=
    Redundancy.rule_keeps_definitions command isMet (same ▸ isReserved) isRule applies
  reread {annotated copy note p d} free free' command _ := by
    have renamed := Propagation.command?_reread annotated copy note command
    have other : x ≠ copy.dst := by
      rintro rfl
      exact free isReserved
    have other' : x ≠ copy.src := by
      rintro rfl
      exact free' isReserved
    have same := Command.defs_renameReads_of_mem (c := d) other other'
    rw [Ward.covers_definitions command, Ward.covers_definitions renamed]
    constructor
    · rw [Bool.eq_iff_iff, List.contains_iff_mem, List.contains_iff_mem]
      exact ⟨fun new => same (Or.inr new) ▸ new, fun old => (same (Or.inl old)).symm ▸ old⟩
    · intro written
      have becomes : p.Becomes annotated (Propagation.reread annotated copy note p) :=
        Propagation.reread_becomes command
      exact .same ⟨becomes.id, becomes.comment, d, _, command, renamed,
        Command.redefines_renameReads (Ne.symm other')
          (same (Or.inl (List.contains_iff_mem.1 written)))⟩

section Met

variable (ran : run o program = .ok final) (reserved : x ∈ o.reserved)
variable (isMet : Meets o program window repl)

include ran reserved isMet

/-- A definition in a window comes from one in the program. -/
theorem exists_restates (inside : p ∈ window) (written : p.writes x = true) :
    ∃ p₀ ∈ program.code, p₀.writes x = true ∧ p₀.Restates x (Meets o program) p := by
  obtain ⟨before, after, comes, -⟩ :=
    keeps_around_met (definitions_respected (FactSet.mem_ofList.2 reserved) _) ran isMet
  have member : p ∈ (before ++ window ++ after).filter (·.writes x) :=
    List.mem_filter.2 ⟨by simp [inside], written⟩
  obtain ⟨p₀, isOld, restates⟩ := Inherits.of_mem comes member
  exact ⟨p₀, (List.mem_filter.1 isOld).1, (List.mem_filter.1 isOld).2, restates⟩

omit reserved in
/-- A store in a window comes from one in the program. -/
theorem exists_store {c : Command} {store : Opcode} (inside : p ∈ window)
    (command : p.command? = some c) (isOp : c.op? = some store) (stores : c.isStore = true) :
    ∃ q ∈ program.code, ∃ d, q.command? = some d ∧ d.op? = some store := by
  obtain ⟨before, after, comes, -⟩ := keeps_around_met (effects_respected _ _) ran isMet
  have effect : p.hasEffect = true := by simp [Instr.hasEffect, command, Command.hasEffect, stores]
  obtain ⟨q, isOld, persists⟩ :=
    Inherits.of_mem comes (List.mem_filter.2 ⟨by simp [inside], effect⟩)
  refine ⟨q, (List.mem_filter.1 isOld).1, ?_⟩
  rcases persists.content with same | ⟨d, c', isOld, isNew, -, rereads⟩
  · exact ⟨c, (Interpretation.command?_congr same).symm.trans command, isOp⟩
  · have command' : p.command? = some c' := by rw [Instr.command?, isNew]
    obtain rfl := Option.some.inj (command.symm.trans command')
    refine ⟨d, by rw [Instr.command?, isOld], ?_⟩
    rw [← isOp, Command.op?, Command.op?, rereads.mnemonic]

/-- A load of `x` through `x` in a window comes from one in the program. -/
theorem exists_load {d : Command} {offset : Offset} (inside : p ∈ window)
    (command : p.command? = some d) (loads : d.readsMemory = true)
    (args : d.args = [.reg x, .mem offset x]) :
    ∃ q ∈ program.code, ∃ c offset, q.command? = some c ∧ c.readsMemory = true ∧
      c.args = [.reg x, .mem offset x] := by
  obtain ⟨load, isOp, has, -, isForm, -⟩ := Redundancy.readsMemory_form loads args
  have written : p.writes x = true := by
    rw [Instr.writes_of_command command, List.contains_iff_mem]
    exact (Command.mem_defs_of_define isForm args).2 rfl
  obtain ⟨q, isOld, -, restates⟩ := exists_restates ran reserved isMet inside written
  cases restates with
  | same redefines =>
    obtain ⟨c, command, redefines⟩ := redefines.source command
    obtain ⟨offset, base, args', kept⟩ := redefines.of_load args
    obtain rfl := kept rfl
    exact ⟨q, isOld, c, offset, command, redefines.readsMemory loads args', args'⟩
  | renewed _ _ _ renews _ after =>
    cases renews with
    | shift id =>
      -- a renewed definition is a copy from then on, and no load
      obtain ⟨c, isCopy, redefines⟩ := after.source command
      cases isCopy
      have isLoad := redefines.has .load
      rw [Command.has_of_op? isOp, has] at isLoad
      cases isLoad

/-- If a definition is dropped or renewed, the program has one of a kind that may be. -/
theorem exists_fleeting (alters : Alters x window repl) :
    ∃ p ∈ program.code, p.IsFleeting x program.code := by
  have fleeting {p : Instr} {d : Command} (inside : p ∈ window) (written : p.writes x = true)
      (command : p.command? = some d)
      (isKind : ∀ c : Command, c.Redefines x d → c.IsFleeting x program.code) :
      ∃ p ∈ program.code, p.IsFleeting x program.code := by
    obtain ⟨p₀, isOld, written, restates⟩ := exists_restates ran reserved isMet inside written
    refine ⟨p₀, isOld, written, ?_⟩
    cases restates with
    | same redefines =>
      obtain ⟨c, command, redefines⟩ := redefines.source command
      exact ⟨c, command, isKind c redefines⟩
    | renewed p' q' before renews =>
      cases renews with
      | shift id command shifts args =>
        obtain ⟨c, command, redefines⟩ := before.source command
        exact ⟨c, command, .shift (redefines.of_isIdleShift ⟨shifts, _, _, args⟩)⟩
  have copied {p : Instr} {src : Reg} (inside : p ∈ window)
      (command : p.command? = some (.copy x src)) :
      ∃ p ∈ program.code, p.IsFleeting x program.code :=
    fleeting inside (by simp [Instr.writes_of_command command]) command fun c redefines =>
      let ⟨src, isCopy⟩ := redefines.of_copy
      .copy src isCopy
  cases alters with
  | drops drops =>
    have written := drops.parts.1
    cases drops with
    | selfCopy command => exact copied (by simp) command
    | readThrough command => exact copied (by simp) command
    | copyBack _ command => exact copied (by simp) command
    | @reload p q store load offset base undoes stores command =>
      refine fleeting (by simp) written command fun c redefines => ?_
      obtain ⟨offset, base, args, -⟩ := redefines.of_load rfl
      refine .reload store load offset base undoes
        (Command.eq_ofOpcode (redefines.op?.trans rfl) args) ?_
      exact exists_store ran isMet (by simp) stores rfl
        (Redundancy.isLoad_of_matchingLoad? rfl (Command.op?_ofOpcode load []) undoes).1
    | shift command shifts args =>
      exact fleeting (by simp) written command fun c redefines =>
        .shift (redefines.of_isIdleShift ⟨shifts, _, _, args⟩)
    | @offset p q op n m d adds command command' loads isLoad =>
      refine fleeting (by simp) written command fun c redefines => ?_
      obtain ⟨dst, src, args, isDst, isSrc⟩ := redefines.of_sum rfl
      rw [isDst rfl, isSrc rfl] at args
      exact .increment op n adds (Command.eq_ofOpcode (redefines.op?.trans rfl) args)
        (exists_load ran reserved isMet (by simp) command' loads isLoad)
  | renews renews =>
    cases renews with
    | shift id command shifts args =>
      refine fleeting (by simp) ?_ command fun c redefines =>
        .shift (redefines.of_isIdleShift ⟨shifts, _, _, args⟩)
      rw [Instr.writes_of_command command, Command.defs_of_shift shifts args]
      simp

end Met

/-- The definitions of a reserved register survive, but in certain windows. Take any program, any
options and any register that they reserve, and let the run converge or give up.

The definitions of the register in the result are, in the same order, those in the program: each has
kept its identity, its mnemonic, its destination, its literals and symbols, or was a shift by zero
that redundancy elimination has met with and turned into a copy; and the result has no others. One
is lost only if redundancy elimination has met with it, or with what stood for it, in a window in
which one of its rules drops it.

All of them are kept just if redundancy elimination meets with no such window, of any definition of
the register. This is so if the program has none of the definitions that can stand in such windows:
copies, shifts by zero, loads where there is a store that they may undo, and increments of the
register by itself where it is also loaded through itself. -/
theorem reserved_definitions_survive (ran : run o program = .ok final) (reserved : x ∈ o.reserved) :
    Inherits (Instr.Restates x (Meets o program)) (Instr.Lost x (Meets o program))
        (program.code.filter (·.writes x)) (final.program.code.filter (·.writes x)) ∧
      (List.Forall₂ (Instr.Redefines x) (program.code.filter (·.writes x))
          (final.program.code.filter (·.writes x)) ↔
        ∀ window repl, Meets o program window repl → ¬ Alters x window repl) ∧
      ((∀ p ∈ program.code, ¬ p.IsFleeting x program.code) →
        List.Forall₂ (Instr.Redefines x) (program.code.filter (·.writes x))
          (final.program.code.filter (·.writes x))) := by
  have respected := definitions_respected (FactSet.mem_ofList.2 reserved) (Meets o program)
  have inherits : Inherits (Instr.Restates x (Meets o program)) (Instr.Lost x (Meets o program))
      (program.code.filter (·.writes x)) (final.program.code.filter (·.writes x)) :=
    (run_respects respected ran).1
  have kept (unmet : ∀ window repl, Meets o program window repl → ¬ Alters x window repl) :
      List.Forall₂ (Instr.Redefines x) (program.code.filter (·.writes x))
        (final.program.code.filter (·.writes x)) := by
    refine (inherits.forall₂ fun p _ ⟨q, window, repl, _, drops, isMet⟩ =>
      unmet window repl isMet (.drops drops)).imp fun p q restates => ?_
    cases restates with
    | same redefines => exact redefines
    | renewed p' q' _ renews isMet => exact absurd (.renews renews) (unmet _ _ isMet)
  refine ⟨inherits, ⟨fun each window repl isMet alters => ?_, kept⟩, fun lasting => kept ?_⟩
  · obtain ⟨before, after, comes, leads⟩ := keeps_around_met respected ran isMet
    have fewer := Instr.stock_le_of_inherits comes
    have fewer' := Instr.stock_le_of_inherits leads
    have same := Instr.stock_eq_of_redefines each
    have less := alters.stock_lt
    simp only [Ward.definitions, List.filter_append, Instr.stock_append] at fewer fewer'
    omega
  · intro window repl isMet alters
    obtain ⟨p, member, fleeting⟩ := exists_fleeting ran reserved isMet alters
    exact lasting p member fleeting

/-- A frame is set up and grows, and is taken down again; its size is read through a copy. There is
no load of the stack pointer, so none of its definitions is fleeting. -/
theorem reserved_definitions_survive_frame :
    let sp : Reg := .general 29
    let program : Program := ⟨[
      .ofCommand 1 (.ofOpcode .addiu [.reg sp, .reg sp, .imm (-16)]),
      .ofCommand 2 (.ofOpcode .sw [.reg Reg.link, .mem (.number 12) sp]),
      .ofCommand 3 (.copy (.general 8) (.general 16)),
      .ofCommand 4 (.ofOpcode .addu [.reg sp, .reg sp, .reg (.general 8)]),
      .ofCommand 5 (.ofOpcode .lw [.reg Reg.link, .mem (.number 12) sp]),
      .ofCommand 6 (.ofOpcode .addiu [.reg sp, .reg sp, .imm 16]),
      .ofCommand 7 (.ofOpcode .jr [.reg Reg.link])], 8⟩
    let left : List Instr := [
      .ofCommand 1 (.ofOpcode .addiu [.reg sp, .reg sp, .imm (-16)]),
      .ofCommand 2 (.ofOpcode .sw [.reg Reg.link, .mem (.number 12) sp]),
      .ofCommand 4 (.ofOpcode .addu [.reg sp, .reg sp, .reg (.general 16)]),
      .ofCommand 5 (.ofOpcode .lw [.reg Reg.link, .mem (.number 12) sp]),
      .ofCommand 6 (.ofOpcode .addiu [.reg sp, .reg sp, .imm 16]),
      .ofCommand 7 (.ofOpcode .jr [.reg Reg.link])]
    ∃ final, run {} program = .ok final ∧ final.notConverging = none ∧ final.program.code = left ∧
      List.Forall₂ (Instr.Redefines sp) (program.code.filter (·.writes sp))
        (final.program.code.filter (·.writes sp)) := by
  intro sp program left
  have shown : ((run {} program).toOption.map fun s => (s.notConverging, s.program.code)) =
      some (none, left) := by decide +kernel
  obtain ⟨final, ran, isShown⟩ := Option.map_eq_some_iff.1 shown
  have ran := ok_of_toOption ran
  obtain ⟨converged, code⟩ := Prod.mk.inj isShown
  refine ⟨final, ran, converged, code, (reserved_definitions_survive ran (by decide)).2.2 ?_⟩
  rintro p member ⟨written, c, command, fleeting⟩
  have sums : ∀ p ∈ program.code, p.writes sp = true → ∀ c, p.command? = some c →
      c.copy? = none ∧ c.isShift = false ∧ c.isLoad = false := by decide
  have others : ∀ q ∈ program.code, ∀ d, q.command? = some d → d.readsMemory = true →
      d.args[0]? = some (.reg Reg.link) := by decide
  obtain ⟨noCopy, noShift, noLoad⟩ := sums p member written c command
  cases fleeting with
  | copy _ isCopy => cases noCopy.symm.trans (Command.copy?_eq_some.2 isCopy)
  | shift idle => cases noShift.symm.trans idle.1
  | reload store load _ _ undoes isLoad =>
    have isOp : c.op? = some load := isLoad ▸ rfl
    cases noLoad.symm.trans
      (Redundancy.isLoad_of_matchingLoad? (Command.op?_ofOpcode store []) isOp undoes).2
  | increment _ _ _ _ loads =>
    obtain ⟨q, inside, d, offset, command, loads, args⟩ := loads
    have other := others q inside d command loads
    rw [args] at other
    exact absurd (Operand.reg.inj (Option.some.inj other)) (by decide)

/-- A copy to itself, the second of two opposite copies, a load behind a store and a shift by zero
define the stack pointer, which is always reserved. The first three are dropped, and the fourth is
replaced by a copy with another identity. -/
theorem reserved_definitions_lost :
    let sp : Reg := .general 29
    let program : Program := ⟨[
      .ofCommand 1 (.copy sp sp),
      .ofCommand 2 (.copy (.general 2) sp),
      .ofCommand 3 (.copy sp (.general 2)),
      .ofCommand 4 (.ofOpcode .sw [.reg sp, .mem (.number 0) (.general 4)]),
      .ofCommand 5 (.ofOpcode .lw [.reg sp, .mem (.number 0) (.general 4)]),
      .ofCommand 6 (.ofOpcode .sll [.reg sp, .reg (.general 4), .imm 0]),
      .ofCommand 7 (.ofOpcode .jr [.reg Reg.link])], 8⟩
    sp ∈ ({} : Options).reserved ∧
      (program.code.filter (·.writes sp)).map Instr.id = [1, 3, 5, 6] ∧
      ∃ final, run {} program = .ok final ∧ final.notConverging = none ∧
        (final.program.code.filter (·.writes sp)).map Instr.id = [8] := by
  intro sp program
  have shown : ((run {} program).toOption.map fun s =>
      (s.notConverging, (s.program.code.filter (·.writes sp)).map Instr.id)) =
        some (none, [8]) := by decide +kernel
  obtain ⟨final, ran, isShown⟩ := Option.map_eq_some_iff.1 shown
  obtain ⟨converged, left⟩ := Prod.mk.inj isShown
  exact ⟨by decide, by decide, final, ok_of_toOption ran, converged, left⟩

end Optimizer

end MipsFlow
