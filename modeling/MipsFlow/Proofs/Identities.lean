import MipsFlow.Proofs.RunDescent

/-!
# Identities stay unique

Passes keep instructions, exchange their commands, copy them and put new ones between them, and all
of them take the identities of new instructions from one counter. An instruction is known by its
identity, in the facts and when notes are handed over, so no identity may stand in a program twice.

Calls of the optimizer with any options, whether they converge or give up, put together to one
descent (`Optimizer.descends_of_called`).

* `Optimizer.identities_unique`: identities that are distinct and below the next free one are so
  again after any number of calls; what bears an old identity is the old instruction, of the same
  kind, and what bears another is a command that was added.
-/

namespace MipsFlow

/-! ## Kinds -/

/-- What sort of item an instruction is. -/
inductive Kind where
  | label
  | directive
  | comment
  | command
deriving DecidableEq, Repr

/-- The kind of an instruction. -/
def Instr.kind (p : Instr) : Kind :=
  match p.content with
  | .label _ => .label
  | .directive _ => .directive
  | .comment _ _ => .comment
  | .command _ => .command

namespace Instr

variable {annotated : Bool} {n m : Nat} {p q : Instr}

theorem kind_eq_command : p.kind = .command ↔ p.isCommand = true := by
  unfold kind isCommand command?
  cases p.content <;> simp

/-- An edit exchanges commands for commands only. -/
theorem Becomes.kind (becomes : p.Becomes annotated q) : q.kind = p.kind := by
  rcases becomes.content with same | ⟨old, new⟩
  · rw [Instr.kind, Instr.kind, same]
  · rw [kind_eq_command.2 old, kind_eq_command.2 new]

/-- What is no command stays as it is. -/
theorem Becomes.content_eq (becomes : p.Becomes annotated q) (noCommand : q.kind ≠ .command) :
    q.content = p.content :=
  becomes.content.resolve_right fun ⟨_, isCommand⟩ => noCommand (kind_eq_command.2 isCommand)

/-- The second instruction is the first one as it was, or with another command. -/
structure Kept (p q : Instr) : Prop where
  id : q.id = p.id
  kind : q.kind = p.kind
  comment : q.comment = p.comment
  content : q.kind ≠ .command → q.content = p.content

theorem Becomes.kept (becomes : p.Becomes annotated q) : p.Kept q :=
  ⟨becomes.id, becomes.kind, becomes.comment, becomes.content_eq⟩

end Instr

namespace Descends

variable {annotated : Bool} {n m : Nat} {a b : List Instr} {q : Instr}

/-- What bears an old identity is an old instruction. -/
theorem kept (descends : Descends annotated n m a b) (member : q ∈ b) (old : q.id < n) :
    ∃ p ∈ a, p.Kept q :=
  (descends.origin q member).elim (fun ⟨p, inside, becomes⟩ => ⟨p, inside, becomes.kept⟩)
    fun isNew => absurd old (Nat.not_lt.2 isNew.above)

/-- What bears no old identity is a command that was added. -/
theorem added (descends : Descends annotated n m a b) (before : ∀ p ∈ a, p.id < n)
    (member : q ∈ b) (fresh : n ≤ q.id) : q.kind = .command := by
  rcases descends.origin q member with ⟨p, inside, becomes⟩ | isNew
  · exact absurd (becomes.id ▸ before p inside) (Nat.not_lt.2 fresh)
  · exact Instr.kind_eq_command.2 isNew.isCommand

end Descends

namespace Optimizer

variable {program result : Program}

/-- One call of the optimizer makes the second program out of the first one. The options are any,
and the call may have given up. -/
def Called (before after : Program) : Prop :=
  ∃ o final, run o before = .ok final ∧ final.program = after

/-- What any number of calls make of a program has come from it by editing. -/
theorem descends_of_called (called : Relation.ReflTransGen Called program result) :
    Descends true program.nextId result.nextId program.code result.code := by
  induction called with
  | refl => exact .refl _ _
  | tail _ last descends =>
    obtain ⟨o, final, ran, rfl⟩ := last
    exact descends.trans (run_descends ran).annotate

/-- Identities stay unique. Take a program whose identities are distinct and below the next free
one, and optimize it any number of times, with any options each time and whether the optimizer
converges or gives up. Identities are then distinct and below the next free one again, which has not
fallen; an instruction with an identity that was not free at first is the one that bore it, with its
kind, its comment and, unless it is a command, its content; and every other instruction is a
command that was created on the way. -/
theorem identities_unique (distinct : (program.code.map Instr.id).Nodup)
    (below : ∀ p ∈ program.code, p.id < program.nextId)
    (called : Relation.ReflTransGen Called program result) :
    (result.code.map Instr.id).Nodup ∧ (∀ q ∈ result.code, q.id < result.nextId) ∧
      program.nextId ≤ result.nextId ∧
      (∀ q ∈ result.code, q.id < program.nextId → ∃ p ∈ program.code, p.Kept q) ∧
      ∀ q ∈ result.code, program.nextId ≤ q.id → q.kind = .command := by
  have descends := descends_of_called called
  exact ⟨descends.nodup below distinct, descends.below below, descends.le,
    fun q member old => descends.kept member old,
    fun q member fresh => descends.added below member fresh⟩

/-- A shift by nothing becomes a copy with a new identity. The first of the two runs is stopped
after one cycle, the second leaves notes. -/
theorem identities_unique_stopped :
    let source := "\t.text\nf:\tsll $2,$4,0\n\tsw $2,4($6)\n\tjr $31\n"
    ∃ program once twice, Program.parse "shift.s" source = .ok program ∧
      Called program once ∧ Called once twice ∧
      (program.code.map Instr.id, program.nextId) = ([1, 2, 3, 4, 5], 6) ∧
      (twice.code.map Instr.id, twice.nextId) = ([1, 2, 6, 4, 5], 7) ∧
      ((twice.code.map Instr.id).Nodup ∧ (∀ q ∈ twice.code, q.id < twice.nextId) ∧
        program.nextId ≤ twice.nextId ∧
        (∀ q ∈ twice.code, q.id < program.nextId → ∃ p ∈ program.code, p.Kept q) ∧
        ∀ q ∈ twice.code, program.nextId ≤ q.id → q.kind = .command) := by
  intro source
  have shown : ((Program.parse "shift.s" source).toOption.bind fun program =>
      (run { maxCycles := 1 } program).toOption.bind fun once =>
        (run { verbose := 1 } once.program).toOption.map fun twice =>
          ((program.code.map Instr.id, program.nextId),
            twice.program.code.map Instr.id, twice.program.nextId)) =
      some (([1, 2, 3, 4, 5], 6), [1, 2, 6, 4, 5], 7) := by
    decide +kernel
  simp only [Option.bind_eq_some_iff, Option.map_eq_some_iff] at shown
  obtain ⟨program, parsed, once, first, twice, second, identities⟩ := shown
  obtain ⟨atFirst, atLast⟩ := Prod.mk.inj identities
  obtain ⟨ids, next⟩ := Prod.mk.inj atFirst
  have stopped : Called program once.program := ⟨_, once, ok_of_toOption first, rfl⟩
  have settled : Called once.program twice.program := ⟨_, twice, ok_of_toOption second, rfl⟩
  have distinct : (program.code.map Instr.id).Nodup := by
    rw [ids]
    decide
  have below : ∀ p ∈ program.code, p.id < program.nextId := by
    have bound : ∀ id ∈ program.code.map Instr.id, id < program.nextId := by
      rw [ids, next]
      decide
    exact fun p member => bound p.id (List.mem_map_of_mem member)
  exact ⟨program, once.program, twice.program, ok_of_toOption parsed, stopped, settled, atFirst,
    atLast, identities_unique distinct below (.tail (.single stopped) settled)⟩

end Optimizer

end MipsFlow
