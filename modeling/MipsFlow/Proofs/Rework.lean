import MipsFlow.Proofs.LiveFlow
import MipsFlow.Proofs.Notes

/-!
# Improving the code of a block

A pass over a block may exchange its code for other code that does the same as far as anybody can
tell behind the block, and that needs no more than the old code at its entry: `Improves`. It keeps
labels, jumps and the order of both, and only takes away, exchanges and puts in commands that do
not jump: `Reworked`. Both may be proved for a window of the code (`Improves.inside`,
`Reworked.window`).
-/

namespace MipsFlow

variable {V M : Type}

/-! ## Code that does the same -/

/-- The second piece of code ends in states that agree on `out` with those that the first one ends
in, takes the same decision, and needs no other registers. -/
structure Improves (I : Interpretation V M) (reserved out : FactSet Reg)
    (code code' : List Instr) : Prop where
  ends : ∀ s, AgreeOn I out (I.execAll code s) (I.execAll code' s)
  leaves : ∀ here s, I.leave here code' s = I.leave here code s
  live : ∀ r ∈ Liveness.liveIn reserved false out code',
    r ∈ Liveness.liveIn reserved false out code

theorem uses_congr {p q : Instr} (same : p.content = q.content) : p.uses = q.uses := by
  unfold Instr.uses
  rw [Interpretation.command?_congr same]

theorem defs_congr {p q : Instr} (same : p.content = q.content) : p.defs = q.defs := by
  unfold Instr.defs
  rw [Interpretation.command?_congr same]

theorem isJump_congr {p q : Instr} (same : p.content = q.content) : p.isJump = q.isJump := by
  unfold Instr.isJump Instr.isCommandWith
  rw [Interpretation.command?_congr same]

theorem liveIn_congr {reserved out : FactSet Reg} {unresolved : Bool} {a b : List Instr}
    (same : a.map Instr.content = b.map Instr.content) (r : Reg) :
    r ∈ Liveness.liveIn reserved unresolved out a ↔
      r ∈ Liveness.liveIn reserved unresolved out b := by
  replace same := forall₂_of_map_eq same
  induction same with
  | nil => rfl
  | @cons p q rest others same later ih =>
    have ends : rest = [] ↔ others = [] := by
      rw [← List.length_eq_zero_iff, later.length_eq, List.length_eq_zero_iff]
    simp only [Liveness.mem_liveIn_cons, Liveness.mem_usesBefore, uses_congr same,
      defs_congr same, isJump_congr same, ends, ih]

namespace Improves

variable {I : Interpretation V M} {reserved out : FactSet Reg} {a b c : List Instr}

theorem of_content (same : a.map Instr.content = b.map Instr.content) :
    Improves I reserved out a b := by
  refine ⟨fun s => ?_, fun here s => (I.leave_congr same).symm, fun r live => ?_⟩
  · rw [I.execAll_congr same]
    exact .refl ..
  · exact (liveIn_congr same r).2 live

theorem trans (first : Improves I reserved out a b) (second : Improves I reserved out b c) :
    Improves I reserved out a c :=
  ⟨fun s => (first.ends s).trans (second.ends s),
    fun here s => (second.leaves here s).trans (first.leaves here s),
    fun r live => first.live r (second.live r live)⟩

/-- A window that does the same in every state that the code before it leads to, for what is live
behind it, improves the code around it. -/
theorem inside_behind (before : List Instr) {window repl rest : List Instr}
    (known : ∀ p ∈ rest, p.isKnown = true)
    (ends : ∀ s, AgreeOn I (Liveness.liveIn reserved false out rest)
      (I.execAll window (I.execAll before s)) (I.execAll repl (I.execAll before s)))
    (leaves : ∀ here s, I.leave here repl (I.execAll before s) =
      I.leave here window (I.execAll before s))
    (live : ∀ r ∈ Liveness.liveIn reserved false (Liveness.liveIn reserved false out rest) repl,
      r ∈ Liveness.liveIn reserved false (Liveness.liveIn reserved false out rest) window) :
    Improves I reserved out (before ++ window ++ rest) (before ++ repl ++ rest) := by
  have follow := fun s => Liveness.agree_execAll known (ends s)
  refine ⟨fun s => ?_, fun here s => ?_, fun r member => ?_⟩
  · simp only [I.execAll_append]
    exact (follow _).1
  · simp only [I.leave_append, I.execAll_append, leaves, (follow _).2]
  · simp only [Liveness.liveIn_append] at member ⊢
    exact Liveness.liveIn_mono live member

/-- Improving a window, for what is live behind it, improves the code around it. -/
theorem inside (before : List Instr) {window repl rest : List Instr}
    (known : ∀ p ∈ rest, p.isKnown = true)
    (improves : Improves I reserved (Liveness.liveIn reserved false out rest) window repl) :
    Improves I reserved out (before ++ window ++ rest) (before ++ repl ++ rest) :=
  inside_behind before known (fun _ => improves.ends _) (fun here _ => improves.leaves here _)
    improves.live

end Improves

/-! ## Code with the same outline -/

namespace Instr

/-- The instruction is a command that does not jump. -/
def isPlain (p : Instr) : Bool := p.isCommandWith fun c => !c.isJump

theorem isPlain_of_command {p : Instr} {c : Command} (command : p.command? = some c)
    (stays : c.isJump = false) : p.isPlain = true := by
  rw [isPlain, isCommandWith_of_command command, stays]
  rfl

theorem label?_of_isCommand {p : Instr} {c : Command} (command : p.command? = some c) :
    p.label? = none := by
  unfold Instr.command? at command
  unfold Instr.label?
  split at command
  · next isContent => simp [isContent]
  · contradiction

theorem label?_congr {p q : Instr} (same : p.content = q.content) : p.label? = q.label? := by
  unfold Instr.label?
  rw [same]

theorem exists_command_of_isPlain {p : Instr} (plain : p.isPlain = true) :
    ∃ c, p.command? = some c ∧ c.isJump = false := by
  unfold isPlain isCommandWith at plain
  cases command : p.command? with
  | none => simp [command] at plain
  | some c => exact ⟨c, rfl, by simpa [command] using plain⟩

theorem isJump_of_isPlain {p : Instr} (plain : p.isPlain = true) : p.isJump = false := by
  obtain ⟨c, command, stays⟩ := exists_command_of_isPlain plain
  rw [isJump_of_command command, stays]

end Instr

/-- How a jump leaves a block: its opcode, the label that it goes to, and whether it returns. -/
structure Exit where
  op? : Option Opcode
  target? : Option String
  returns : Bool
deriving DecidableEq

/-- How a command leaves a block. -/
def Command.exit (c : Command) : Exit := ⟨c.op?, c.target?, c.isReturn⟩

/-- The exits of the jumps in some code. -/
def exits (code : List Instr) : List Exit :=
  code.filterMap fun p => (p.command?.filter Command.isJump).map Command.exit

theorem mem_exits {code : List Instr} {e : Exit} : e ∈ exits code ↔
    ∃ p ∈ code, ∃ c, p.command? = some c ∧ c.isJump = true ∧ c.exit = e := by
  simp only [exits, List.mem_filterMap, Option.map_eq_some_iff, Option.filter_eq_some_iff,
    and_assoc]

/-- A jump that goes to a label stands in the code. -/
theorem exists_target_of_mem_exits {code : List Instr} {e : Exit} {label : String}
    (exit : e ∈ exits code) (target : e.target? = some label) :
    ∃ p ∈ code, p.target? = some label := by
  obtain ⟨p, member, c, command, -, rfl⟩ := mem_exits.1 exit
  refine ⟨p, member, ?_⟩
  rw [Instr.target?, command]
  exact target

/-- What is collected from the contents of instructions does not depend on anything else. -/
theorem filterMap_congr_content {β : Type} {collect : Instr → Option β} {a b : List Instr}
    (respects : ∀ {p q : Instr}, p.content = q.content → collect p = collect q)
    (same : a.map Instr.content = b.map Instr.content) :
    b.filterMap collect = a.filterMap collect := by
  replace same := forall₂_of_map_eq same
  induction same with
  | nil => rfl
  | cons same _ ih => rw [List.filterMap_cons, List.filterMap_cons, respects same, ih]

/-- The second piece of code comes from the first by exchanging windows of plain commands for other
plain commands, and jumps for others that leave in the same way. -/
inductive Reworked : List Instr → List Instr → Prop
  | same {a b : List Instr} : a.map Instr.content = b.map Instr.content → Reworked a b
  | window (before : List Instr) {window repl : List Instr} (rest : List Instr) : window ≠ [] →
    (∀ p ∈ window, p.isPlain = true) → (∀ p ∈ repl, p.isPlain = true) →
    Reworked (before ++ window ++ rest) (before ++ repl ++ rest)
  | jump (before : List Instr) {p q : Instr} {c d : Command} (rest : List Instr) :
    p.command? = some c → q.command? = some d → c.isJump = true → d.isJump = true →
    d.exit = c.exit → Reworked (before ++ p :: rest) (before ++ q :: rest)
  | trans {a b c : List Instr} : Reworked a b → Reworked b c → Reworked a c

/-- Code without jumps has no exits. -/
theorem exits_of_plain {code : List Instr} (plain : ∀ p ∈ code, p.isJump = false) :
    exits code = [] := by
  refine List.eq_nil_iff_forall_not_mem.2 fun e member => ?_
  obtain ⟨p, inside, c, command, jumps, -⟩ := mem_exits.1 member
  rw [← Instr.isJump_of_command command, plain p inside] at jumps
  contradiction

theorem exits_append (a b : List Instr) : exits (a ++ b) = exits a ++ exits b :=
  List.filterMap_append

namespace Reworked

variable {a b : List Instr}

theorem refl (code : List Instr) : Reworked code code := .same rfl

/-- Reworking a part reworks the whole. -/
theorem around (before after : List Instr) (reworked : Reworked a b) :
    Reworked (before ++ a ++ after) (before ++ b ++ after) := by
  induction reworked with
  | same same => exact .same (by simp [same])
  | window front rest nonempty plain plain' =>
    have inside := Reworked.window (before ++ front) (rest ++ after) nonempty plain plain'
    simpa only [List.append_assoc] using inside
  | jump front rest command command' jumps jumps' exit =>
    have inside :=
      Reworked.jump (before ++ front) (rest ++ after) command command' jumps jumps' exit
    simpa only [List.append_assoc, List.cons_append] using inside
  | trans _ _ first second => exact first.trans second

theorem cons (p : Instr) (reworked : Reworked a b) : Reworked (p :: a) (p :: b) := by
  simpa using reworked.around [p] []

theorem labels_eq (reworked : Reworked a b) :
    b.filterMap Instr.label? = a.filterMap Instr.label? := by
  induction reworked with
  | same same => exact filterMap_congr_content Instr.label?_congr same
  | window before rest _ plain plain' =>
    have none : ∀ code : List Instr, (∀ p ∈ code, p.isPlain = true) →
        code.filterMap Instr.label? = [] := by
      intro code plain
      rw [List.filterMap_eq_nil_iff]
      intro p member
      obtain ⟨c, command, -⟩ := Instr.exists_command_of_isPlain (plain p member)
      exact Instr.label?_of_isCommand command
    simp [none _ plain, none _ plain']
  | jump before rest command command' =>
    simp [Instr.label?_of_isCommand command, Instr.label?_of_isCommand command']
  | trans _ _ first second => exact second.trans first

theorem exits_eq (reworked : Reworked a b) : exits b = exits a := by
  induction reworked with
  | same same =>
    refine filterMap_congr_content (fun {p q} content => ?_) same
    rw [Interpretation.command?_congr content]
  | window before rest _ plain plain' =>
    have none : ∀ code : List Instr, (∀ p ∈ code, p.isPlain = true) → exits code = [] :=
      fun code plain => exits_of_plain fun p member => Instr.isJump_of_isPlain (plain p member)
    simp only [exits_append, none _ plain, none _ plain']
  | jump before rest command command' jumps jumps' exit =>
    simp [exits, command, command', Option.filter, jumps, jumps', exit]
  | trans _ _ first second => exact second.trans first

end Reworked

/-! ## What reworking keeps -/

/-- Behind a jump there is nothing. -/
def JumpsLast : List Instr → Prop
  | [] => True
  | p :: rest => (p.isJump = true → rest = []) ∧ JumpsLast rest

/-- The label leads the code. -/
def LedBy (label : String) (code : List Instr) : Prop := code.head?.bind Instr.label? = some label

/-- The last command returns. -/
def LastReturns (code : List Instr) : Prop :=
  ∃ c, (code.filterMap Instr.command?).getLast? = some c ∧ c.isReturn = true

theorem Command.isJump_of_isReturn {c : Command} (returns : c.isReturn = true) :
    c.isJump = true := by
  simp only [Command.isReturn, Bool.and_eq_true, Bool.or_eq_true, decide_eq_true_eq] at returns
  rw [Command.isJump]
  rcases returns.1 with isOp | isOp
  all_goals
    rw [Command.has_of_op? isOp]
    rfl

theorem Command.isReturn_of_stays {c : Command} (stays : c.isJump = false) :
    c.isReturn = false := by
  rw [Bool.eq_false_iff]
  intro returns
  exact absurd (stays.symm.trans (Command.isJump_of_isReturn returns)) Bool.false_ne_true

namespace JumpsLast

variable {a b : List Instr}

theorem append (stays : ∀ p ∈ a, p.isJump = false) (last : JumpsLast b) : JumpsLast (a ++ b) := by
  induction a with
  | nil => exact last
  | cons p rest ih =>
    refine ⟨fun jumps => ?_, ih fun q member => stays q (List.mem_cons_of_mem _ member)⟩
    rw [stays p (List.mem_cons_self ..)] at jumps
    contradiction

theorem of_append (nonempty : b ≠ []) (last : JumpsLast (a ++ b)) :
    (∀ p ∈ a, p.isJump = false) ∧ JumpsLast b := by
  induction a with
  | nil => exact ⟨by simp, last⟩
  | cons p rest ih =>
    obtain ⟨stays, lastRest⟩ := ih last.2
    refine ⟨fun q member => ?_, lastRest⟩
    rcases List.mem_cons.1 member with rfl | later
    · rw [Bool.eq_false_iff]
      intro jumps
      have empty := last.1 jumps
      simp [nonempty] at empty
    · exact stays q later

/-- Nothing is behind a jump. -/
theorem eq_nil {p : Instr} (last : JumpsLast (a ++ p :: b)) (jumps : p.isJump = true) : b = [] :=
  (last.of_append (List.cons_ne_nil p b)).2.1 jumps

theorem of_plain (stays : ∀ p ∈ a, p.isJump = false) : JumpsLast a := by
  simpa using append stays (b := []) trivial

end JumpsLast

namespace Reworked

variable {a b : List Instr}

theorem jumpsLast (reworked : Reworked a b) (last : JumpsLast a) : JumpsLast b := by
  induction reworked with
  | @same a b same =>
    replace same := forall₂_of_map_eq same
    induction same with
    | nil => trivial
    | cons same later ih =>
      refine ⟨fun jumps => ?_, ih last.2⟩
      obtain rfl := last.1 ((isJump_congr same).trans jumps)
      exact List.forall₂_nil_left_iff.1 later
  | @window before window repl rest nonempty plain plain' =>
    rw [List.append_assoc] at last ⊢
    obtain ⟨stays, lastRest⟩ := JumpsLast.of_append (by simp [nonempty]) last
    have staysRepl : ∀ p ∈ repl, p.isJump = false := fun p member =>
      Instr.isJump_of_isPlain (plain' p member)
    refine JumpsLast.append stays ?_
    cases rest with
    | nil =>
      rw [List.append_nil]
      exact JumpsLast.of_plain staysRepl
    | cons q others =>
      exact JumpsLast.append staysRepl (JumpsLast.of_append (by simp) lastRest).2
  | @jump before p q c d rest command command' jumps jumps' exit =>
    obtain ⟨stays, lastRest⟩ := JumpsLast.of_append (by simp) last
    have isJump : p.isJump = true := (Instr.isJump_of_command command).trans jumps
    exact JumpsLast.append stays ⟨fun _ => lastRest.1 isJump, lastRest.2⟩
  | trans _ _ first second => exact second (first last)

theorem ledBy {label : String} (reworked : Reworked a b) (leads : LedBy label a) :
    LedBy label b := by
  unfold LedBy at *
  induction reworked with
  | @same a b same =>
    cases forall₂_of_map_eq same with
    | nil => simp at leads
    | cons content => simpa [Instr.label?_congr content] using leads
  | @window before window repl rest nonempty plain plain' =>
    cases before with
    | nil =>
      cases window with
      | nil => exact absurd rfl nonempty
      | cons p others =>
        obtain ⟨c, command, -⟩ :=
          Instr.exists_command_of_isPlain (plain p (List.mem_cons_self ..))
        simp [Instr.label?_of_isCommand command] at leads
    | cons p others => exact leads
  | @jump before p q c d rest command command' jumps jumps' exit =>
    cases before with
    | nil => simp [Instr.label?_of_isCommand command] at leads
    | cons p others => exact leads
  | trans _ _ first second => exact second (first leads)

theorem lastReturns (reworked : Reworked a b) (returns : LastReturns a) : LastReturns b := by
  unfold LastReturns at *
  induction reworked with
  | same same => rwa [filterMap_congr_content Interpretation.command?_congr same]
  | @window before window repl rest nonempty plain plain' =>
    obtain ⟨c, last, isReturn⟩ := returns
    refine ⟨c, ?_, isReturn⟩
    simp only [List.filterMap_append] at last ⊢
    cases behind : rest.filterMap Instr.command? with
    | cons d others =>
      rw [behind, List.getLast?_append_of_ne_nil _ (by simp)] at last
      rw [List.getLast?_append_of_ne_nil _ (by simp)]
      exact last
    | nil =>
      -- the last command would be one of the window, but those do not return
      exfalso
      rw [behind, List.append_nil] at last
      obtain ⟨p, others, rfl⟩ := List.exists_cons_of_ne_nil nonempty
      obtain ⟨d, command, -⟩ := Instr.exists_command_of_isPlain (plain p (List.mem_cons_self ..))
      rw [List.getLast?_append_of_ne_nil _ (by simp [command])] at last
      obtain ⟨q, position, isCommand⟩ := List.mem_filterMap.1 (List.mem_of_getLast? last)
      obtain ⟨e, command', stays⟩ := Instr.exists_command_of_isPlain (plain q position)
      rw [command'] at isCommand
      cases isCommand
      rw [Command.isJump_of_isReturn isReturn] at stays
      contradiction
  | @jump before p q c d rest command command' jumps jumps' exit =>
    obtain ⟨e, last, isReturn⟩ := returns
    simp only [List.filterMap_append, List.filterMap_cons, command, command'] at last ⊢
    rw [List.getLast?_append_of_ne_nil _ (by simp)] at last
    rw [List.getLast?_append_of_ne_nil _ (by simp)]
    cases behind : rest.filterMap Instr.command? with
    | cons f others =>
      rw [behind] at last
      exact ⟨e, by simpa using last, isReturn⟩
    | nil =>
      rw [behind] at last
      simp only [List.getLast?_singleton, Option.some.injEq] at last
      subst last
      refine ⟨d, rfl, ?_⟩
      have sameReturn : d.isReturn = c.isReturn := congrArg Exit.returns exit
      rw [sameReturn, isReturn]
  | trans _ _ first second => exact second (first returns)

end Reworked

end MipsFlow
