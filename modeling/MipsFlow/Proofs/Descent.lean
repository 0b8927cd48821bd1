import Mathlib.Data.List.Nodup
import MipsFlow.Proofs.BlockPass

/-!
# Where instructions come from

An edit keeps instructions, exchanges the commands of some, drops some, and adds commands. Code
*descends* from other code if it has come from it in this way: every instruction has the identity of
an old one, of which it keeps the comment, or is a command with an identity that has been given out
on the way. No identity is used more often than before, and no word that is new to the program is
used: the operands of commands are put together from registers, symbols and offsets that were there,
from scratch registers and from numbers. Where no notes are left, none are gained.

Descent is transitive (`Descends.trans`) and goes through for parts (`Descends.around`), so it is
enough to look at the window that an edit exchanges (`Descends.splice`).
-/

namespace MipsFlow

/-! ## Words -/

/-- The words that a program may use. Scratch registers are among them, and the empty comment. -/
structure Vocabulary where
  reg : Reg → Prop
  symbol : String → Prop
  offset : String → Prop
  mnemonic : String → Prop
  comment : String → Prop
  /-- Labels, directives and comments that stand alone. -/
  other : Content → Prop
  scratch : ∀ r ∈ Reg.scratch, reg r
  silence : comment ""

namespace Vocabulary

/-- The operand is put together from words of the vocabulary. -/
def Operand (V : Vocabulary) : MipsFlow.Operand → Prop
  | .reg r => V.reg r
  | .imm _ => True
  | .mem (.number _) base => V.reg base
  | .mem (.symbol text) base => V.offset text ∧ V.reg base
  | .sym text => V.symbol text

/-- The command is put together from words of the vocabulary. -/
structure Command (V : Vocabulary) (c : MipsFlow.Command) : Prop where
  mnemonic : ∀ name, c.mnemonic = .unknown name → V.mnemonic name
  args : ∀ o ∈ c.args, V.Operand o

/-- The content is put together from words of the vocabulary. -/
def Content (V : Vocabulary) : MipsFlow.Content → Prop
  | .command c => V.Command c
  | content => V.other content

/-- The instruction is put together from words of the vocabulary. -/
structure Admits (V : Vocabulary) (p : Instr) : Prop where
  content : V.Content p.content
  comment : V.comment p.comment

variable {V : Vocabulary} {p : Instr} {c d : MipsFlow.Command} {o : MipsFlow.Operand}

theorem Admits.command (admits : V.Admits p) (command : p.command? = some c) : V.Command c := by
  have content := admits.content
  unfold Instr.command? at command
  split at command
  · next isContent =>
    cases command
    rwa [isContent] at content
  · contradiction

theorem Admits.withCommand (admits : V.Admits p) (command : V.Command c) :
    V.Admits (p.withCommand c) := ⟨command, admits.comment⟩

theorem Admits.ofCommand (command : V.Command c) (id : Nat) : V.Admits (.ofCommand id c) :=
  ⟨command, V.silence⟩

theorem Admits.of_bare {q : Instr} (same : q.bare = p.bare) (admits : V.Admits p) :
    V.Admits q :=
  ⟨Instr.content_of_bare same ▸ admits.content, Instr.comment_of_bare same ▸ admits.comment⟩

/-- A command with other operands from the vocabulary. -/
theorem Command.withArgs (command : V.Command c) {args : List MipsFlow.Operand}
    (admitted : ∀ o ∈ args, V.Operand o) : V.Command { c with args } :=
  ⟨command.mnemonic, admitted⟩

/-- A command with a known opcode. -/
theorem Command.ofOpcode (op : Opcode) {args : List MipsFlow.Operand}
    (admitted : ∀ o ∈ args, V.Operand o) : V.Command (.ofOpcode op args) :=
  ⟨fun _ isUnknown => Mnemonic.noConfusion isUnknown, admitted⟩

theorem Command.copy {dst src : Reg} (isDst : V.reg dst) (isSrc : V.reg src) :
    V.Command (.copy dst src) :=
  .ofOpcode .move (List.forall_mem_cons.2 ⟨isDst, List.forall_mem_singleton.2 isSrc⟩)

theorem Command.loadImm {dst : Reg} (isDst : V.reg dst) (value : Int64) :
    V.Command (.loadImm dst value) :=
  .ofOpcode .li (List.forall_mem_cons.2 ⟨isDst, List.forall_mem_singleton.2 trivial⟩)

/-- The registers of a copy. -/
theorem Command.of_copy? (command : V.Command c) {dst src : Reg}
    (copies : c.copy? = some (dst, src)) : V.reg dst ∧ V.reg src := by
  rw [MipsFlow.Command.copy?_eq_some] at copies
  subst copies
  exact ⟨command.args (.reg dst) (by simp [MipsFlow.Command.copy, MipsFlow.Command.ofOpcode]),
    command.args (.reg src) (by simp [MipsFlow.Command.copy, MipsFlow.Command.ofOpcode])⟩

theorem Operand.withBase (operand : V.Operand o) {r : Reg} (isReg : V.reg r) :
    V.Operand (o.withBase r) := by
  cases o with
  | reg _ => exact isReg
  | imm _ => trivial
  | mem offset _ =>
    cases offset with
    | number _ => exact isReg
    | symbol _ => exact ⟨operand.1, isReg⟩
  | sym _ => exact operand

end Vocabulary

/-! ## Descent -/

/-- What has become of an instruction: its command may have been exchanged. -/
structure Instr.Becomes (annotated : Bool) (p q : Instr) : Prop where
  id : q.id = p.id
  comment : q.comment = p.comment
  content : q.content = p.content ∨ (p.isCommand = true ∧ q.isCommand = true)
  notes : annotated = false → q.notes = p.notes

/-- A command that was added with one of the identities from `n` up to `m`. -/
structure Instr.IsNew (annotated : Bool) (n m : Nat) (q : Instr) : Prop where
  above : n ≤ q.id
  below : q.id < m
  isCommand : q.isCommand = true
  notes : annotated = false → q.notes = []

/-- The code `b` has come from `a` by editing, and the identities from `n` up to `m` have been given
out for it. -/
structure Descends (annotated : Bool) (n m : Nat) (a b : List Instr) : Prop where
  le : n ≤ m
  origin : ∀ q ∈ b, (∃ p ∈ a, p.Becomes annotated q) ∨ q.IsNew annotated n m
  unique : ∀ id, (b.map Instr.id).count id ≤
    (a.map Instr.id).count id + if n ≤ id ∧ id < m then 1 else 0
  admits : ∀ V : Vocabulary, (∀ p ∈ a, V.Admits p) → ∀ q ∈ b, V.Admits q

variable {annotated : Bool} {n m k : Nat} {a b c a' b' : List Instr} {p q r : Instr}

namespace Instr

theorem Becomes.refl (p : Instr) : p.Becomes annotated p := ⟨rfl, rfl, Or.inl rfl, fun _ => rfl⟩

theorem Becomes.trans (first : p.Becomes annotated q) (second : q.Becomes annotated r) :
    p.Becomes annotated r := by
  refine ⟨second.id.trans first.id, second.comment.trans first.comment, ?_, fun silent =>
    (second.notes silent).trans (first.notes silent)⟩
  have kind {x y : Instr} (same : y.content = x.content) : y.isCommand = x.isCommand := by
    rw [isCommand, isCommand, command?, command?, same]
  rcases first.content with same | ⟨isCommand, isCommand'⟩
  · rcases second.content with same' | ⟨isCommand, isCommand'⟩
    · exact Or.inl (same'.trans same)
    · exact Or.inr ⟨kind same ▸ isCommand, isCommand'⟩
  · rcases second.content with same' | ⟨-, isCommand'⟩
    · exact Or.inr ⟨isCommand, (kind same').trans isCommand'⟩
    · exact Or.inr ⟨isCommand, isCommand'⟩

theorem Becomes.withCommand {c : Command} (command : p.command? = some c) (d : Command) :
    p.Becomes annotated (p.withCommand d) :=
  ⟨rfl, rfl, Or.inr ⟨by simp [isCommand, command], rfl⟩, fun _ => rfl⟩

theorem isCommand_of_bare (same : q.bare = p.bare) (isCommand : p.isCommand = true) :
    q.isCommand = true := by
  rw [Instr.isCommand, Instr.command?, content_of_bare same]
  exact isCommand

theorem IsNew.ofCommand (n : Nat) (c : Command) :
    (Instr.ofCommand n c).IsNew annotated n (n + 1) :=
  ⟨Nat.le_refl n, Nat.lt_succ_self n, rfl, fun _ => rfl⟩

theorem Becomes.of_bare (same : q.bare = p.bare) (noted : annotated = true) :
    p.Becomes annotated q :=
  ⟨id_of_bare same, comment_of_bare same, Or.inl (content_of_bare same), fun silent =>
    absurd silent (by simp [noted])⟩

/-- Exchanging the command of a new command gives a new command. -/
theorem IsNew.becomes (isNew : q.IsNew annotated n m) (becomes : q.Becomes annotated r) :
    r.IsNew annotated n m := by
  obtain ⟨above, below, isCommand, notes⟩ := isNew
  refine ⟨becomes.id ▸ above, becomes.id ▸ below, ?_, fun silent =>
    (becomes.notes silent).trans (notes silent)⟩
  rcases becomes.content with same | ⟨-, isCommand'⟩
  · rwa [Instr.isCommand, Instr.command?, same]
  · exact isCommand'

theorem IsNew.mono {n' m' : Nat} (isNew : q.IsNew annotated n m) (below : n' ≤ n) (above : m ≤ m') :
    q.IsNew annotated n' m' :=
  ⟨below.trans isNew.above, isNew.below.trans_le above, isNew.isCommand, isNew.notes⟩

end Instr

namespace View

variable (v : View)

@[simp] theorem bare_succeed (old new : Instr) (note : String) :
    (v.succeed old new note).bare = new.bare := by
  unfold succeed
  split <;> simp

@[simp] theorem bare_noted (note : String) : (v.noted p note).bare = p.bare := by
  unfold noted
  split <;> simp

theorem notes_succeed (old new : Instr) (note : String) (silent : v.annotated = false) :
    (v.succeed old new note).notes = new.notes := by
  simp [succeed, silent]

theorem notes_noted (note : String) (silent : v.annotated = false) :
    (v.noted p note).notes = p.notes := by
  simp [noted, silent]

end View

namespace Descends

theorem refl (n : Nat) (a : List Instr) : Descends annotated n n a a :=
  ⟨Nat.le_refl n, fun q member => Or.inl ⟨q, member, .refl q⟩, fun _ => Nat.le_add_right _ _,
    fun _ admits => admits⟩

/-- Exchanging commands further on, with words that were in the program at first. -/
theorem becomes (descends : Descends annotated n m a b)
    (each : b.Forall₂ (Instr.Becomes annotated) c)
    (admits : ∀ V : Vocabulary, (∀ p ∈ a, V.Admits p) → ∀ q ∈ c, V.Admits q) :
    Descends annotated n m a c := by
  have ids : c.map Instr.id = b.map Instr.id := by
    clear * - each
    induction each with
    | nil => rfl
    | cons becomes _ ih => exact congrArg₂ List.cons becomes.id ih
  refine ⟨descends.le, fun q member => ?_, fun id => ids ▸ descends.unique id, admits⟩
  obtain ⟨i, inside, rfl⟩ := List.getElem_of_mem member
  have inside' : i < b.length := each.length_eq ▸ inside
  have becomes := each.get inside' inside
  exact (descends.origin _ (List.getElem_mem inside')).imp
    (fun ⟨p, old, before⟩ => ⟨p, old, before.trans becomes⟩) fun isNew => isNew.becomes becomes

theorem trans (first : Descends annotated n m a b) (second : Descends annotated m k b c) :
    Descends annotated n k a c := by
  have le := first.le
  have le' := second.le
  refine ⟨le.trans le', fun q member => ?_, fun id => ?_, fun V admits =>
    second.admits V (first.admits V admits)⟩
  · rcases second.origin q member with ⟨p, inside, becomes⟩ | isNew
    · exact (first.origin p inside).imp (fun ⟨o, old, before⟩ => ⟨o, old, before.trans becomes⟩)
        fun isNew => (isNew.becomes becomes).mono le_rfl le'
    · exact Or.inr (isNew.mono le le_rfl)
  · have first := first.unique id
    have second := second.unique id
    split at first <;> split at second <;> split <;> omega

/-- Edits of two parts, one after the other. -/
theorem append (first : Descends annotated n m a b) (second : Descends annotated m k a' b') :
    Descends annotated n k (a ++ a') (b ++ b') := by
  have le := first.le
  have le' := second.le
  refine ⟨le.trans le', fun q member => ?_, fun id => ?_, fun V admits => ?_⟩
  · rcases List.mem_append.1 member with front | back
    · exact (first.origin q front).imp
        (fun ⟨p, inside, becomes⟩ => ⟨p, List.mem_append_left _ inside, becomes⟩)
        fun isNew => isNew.mono le_rfl le'
    · exact (second.origin q back).imp
        (fun ⟨p, inside, becomes⟩ => ⟨p, List.mem_append_right _ inside, becomes⟩)
        fun isNew => isNew.mono le le_rfl
  · have first := first.unique id
    have second := second.unique id
    rw [List.map_append, List.map_append, List.count_append, List.count_append]
    split at first <;> split at second <;> split <;> omega
  · obtain ⟨front, back⟩ := List.forall_mem_append.1 admits
    exact List.forall_mem_append.2 ⟨first.admits V front, second.admits V back⟩

/-- An edit of a part. -/
theorem around (descends : Descends annotated n m a b) (before after : List Instr) :
    Descends annotated n m (before ++ a ++ after) (before ++ b ++ after) :=
  ((refl n before).append descends).append (refl m after)

theorem cons (becomes : p.Becomes annotated q) (admits : ∀ V : Vocabulary, V.Admits p → V.Admits q)
    (rest : Descends annotated n m a b) : Descends annotated n m (p :: a) (q :: b) := by
  have head : Descends annotated n n [p] [q] :=
    ⟨Nat.le_refl n, fun x member => Or.inl ⟨p, List.mem_singleton_self p,
      List.mem_singleton.1 member ▸ becomes⟩, fun id => by simp [becomes.id],
      fun V admitted =>
        List.forall_mem_singleton.2 (admits V (List.forall_mem_singleton.1 admitted))⟩
  exact head.append rest

/-- Dropping instructions. -/
theorem of_sublist (n : Nat) (sublist : b.Sublist a) : Descends annotated n n a b :=
  ⟨Nat.le_refl n, fun q member => Or.inl ⟨q, sublist.subset member, .refl q⟩,
    fun id => Nat.le_trans ((sublist.map Instr.id).count_le id) (Nat.le_add_right _ _),
    fun _ admits q member => admits q (sublist.subset member)⟩

/-- Adding notes, where they may be left. -/
theorem of_bare (n : Nat) (same : b.map Instr.bare = a.map Instr.bare) (noted : annotated = true) :
    Descends annotated n n a b := by
  have origin : ∀ q ∈ b, ∃ p ∈ a, q.bare = p.bare := by
    intro q member
    have inside : q.bare ∈ a.map Instr.bare := same ▸ List.mem_map_of_mem member
    obtain ⟨p, old, isBare⟩ := List.mem_map.1 inside
    exact ⟨p, old, isBare.symm⟩
  have ids : b.map Instr.id = a.map Instr.id := by
    have ids := congrArg (List.map Instr.id) same
    rwa [List.map_map, List.map_map] at ids
  refine ⟨Nat.le_refl n, fun q member => ?_, fun id => ?_, fun V admits q member => ?_⟩
  · obtain ⟨p, old, isBare⟩ := origin q member
    exact Or.inl ⟨p, old, .of_bare isBare noted⟩
  · rw [ids]
    exact Nat.le_add_right _ _
  · obtain ⟨p, old, isBare⟩ := origin q member
    exact (admits p old).of_bare isBare

/-- One instruction of a window is kept, with another command perhaps. -/
theorem one {window : List Instr} (member : p ∈ window) (becomes : p.Becomes annotated q)
    (admits : ∀ V : Vocabulary, (∀ p ∈ window, V.Admits p) → V.Admits q) :
    Descends annotated n n window [q] := by
  obtain ⟨before, after, rfl⟩ := List.append_of_mem member
  refine ⟨Nat.le_refl n, fun x inside => Or.inl ⟨p, member, ?_⟩, fun id => ?_, fun V admitted =>
    List.forall_mem_singleton.2 (admits V admitted)⟩
  · rw [List.mem_singleton.1 inside]
    exact becomes
  · simp only [List.map_append, List.map_cons, List.map_nil, becomes.id, List.count_append]
    have rest : List.count id [p.id] ≤ List.count id (p.id :: after.map Instr.id) :=
      List.Sublist.count_le id (by simp)
    omega

/-- A new command takes the place of a window. -/
theorem new {window : List Instr} (isNew : q.IsNew annotated n (n + 1))
    (admits : ∀ V : Vocabulary, (∀ p ∈ window, V.Admits p) → V.Admits q) :
    Descends annotated n (n + 1) window [q] := by
  refine ⟨Nat.le_succ n, fun x inside => Or.inr ?_, fun id => ?_, fun V admitted =>
    List.forall_mem_singleton.2 (admits V admitted)⟩
  · rw [List.mem_singleton.1 inside]
    exact isNew
  · obtain ⟨above, below, -, -⟩ := isNew
    simp only [List.map_singleton, List.count_singleton, beq_iff_eq]
    split <;> split <;> omega

/-- A new command takes over the notes of the instruction whose place it takes. -/
theorem succeed (v : View) (note : String) {d : Command}
    (admits : ∀ V : Vocabulary, V.Admits p → V.Command d) :
    Descends v.annotated n (n + 1) [p] [v.succeed p (.ofCommand n d) note] := by
  have isNew : Descends v.annotated n (n + 1) [p] [.ofCommand n d] :=
    new (.ofCommand n d) fun V admitted =>
      .ofCommand (admits V (admitted p (List.mem_singleton_self p))) n
  unfold View.succeed
  split
  · next noted => exact isNew.trans (.of_bare _ (by simp) noted)
  · exact isNew

/-- The note of a change is added. -/
theorem noted (v : View) (note : String) : Descends v.annotated n n [p] [v.noted p note] := by
  unfold View.noted
  split
  · next noted => exact .of_bare n (by simp) noted
  · exact .refl n [p]

/-- Where notes may be left, less is known. -/
theorem annotate (descends : Descends annotated n m a b) : Descends true n m a b :=
  ⟨descends.le,
    fun q member => (descends.origin q member).imp
      (fun ⟨p, old, becomes⟩ => ⟨p, old, becomes.id, becomes.comment, becomes.content, nofun⟩)
      fun isNew => ⟨isNew.above, isNew.below, isNew.isCommand, nofun⟩,
    descends.unique, descends.admits⟩

/-- Identities stay below the next free one. -/
theorem below (descends : Descends annotated n m a b) (before : ∀ p ∈ a, p.id < n) :
    ∀ q ∈ b, q.id < m := by
  intro q member
  rcases descends.origin q member with ⟨p, old, becomes⟩ | isNew
  · exact becomes.id ▸ Nat.lt_of_lt_of_le (before p old) descends.le
  · exact isNew.below

/-- Identities stay distinct. One that is given out on the way is not among the old ones, so it
occurs once. -/
theorem nodup (descends : Descends annotated n m a b) (before : ∀ p ∈ a, p.id < n)
    (distinct : (a.map Instr.id).Nodup) : (b.map Instr.id).Nodup := by
  refine List.nodup_iff_count_le_one.2 fun id => ?_
  have unique := descends.unique id
  have once : (a.map Instr.id).count id ≤ 1 := List.nodup_iff_count_le_one.1 distinct id
  split at unique
  · next fresh =>
    have absent : (a.map Instr.id).count id = 0 := by
      refine List.count_eq_zero.2 fun member => ?_
      obtain ⟨p, old, rfl⟩ := List.mem_map.1 member
      exact absurd (before p old) (Nat.not_lt.2 fresh.1)
    omega
  · exact unique.trans once

end Descends

/-! ## Edits -/

/-- Exchanging a window, with or without notes. -/
theorem Descends.splice {window repl : List Instr} (descends : Descends annotated n m window repl)
    (before after : List Instr) (note : String) :
    Descends annotated n m (before ++ window ++ after)
      (Edit.splice annotated (before ++ window ++ after) before.length window.length repl
        note) := by
  have exchanged := Edit.exchange_window before window after repl
  have plain := descends.around before after
  cases annotated with
  | false =>
    rw [Edit.splice, exchanged]
    exact plain
  | true =>
    refine plain.trans (.of_bare m ?_ rfl)
    rw [Edit.bare_splice, exchanged]

/-- Repeating an edit of a block. -/
theorem Descends.exhaust {step : BlockCode → Option BlockCode}
    (edits : ∀ x y, step x = some y → Descends annotated x.nextId y.nextId x.code y.code)
    (fuel : Nat) (x : BlockCode) :
    Descends annotated x.nextId (exhaust step fuel x).nextId x.code (exhaust step fuel x).code :=
  exhaust_induction (fun x y => Descends annotated x.nextId y.nextId x.code y.code)
    (fun x => .refl x.nextId x.code)
    (fun stepped further => (edits _ _ stepped).trans further) fuel x

end MipsFlow
