import MipsFlow.Proofs.CommonSubexpressions
import MipsFlow.Proofs.Lightening

/-!
# Common subexpression elimination in a block

Code that shares a value needs no more registers than before, since what computes the value reads
what the first operation reads, and the temporary is written before it is read. So the pass lightens
the code of a block (`sharing_lightens`). The machine keeps to the table of operand roles, so
sharing a value cannot be seen behind a block, and it runs the new code again: the pass refits the
code of a block (`sharing_refits`).
-/

namespace MipsFlow

namespace Machine

theorem target_of_mem_scratch {t : Reg} (member : t ∈ Reg.scratch) : Target t := by
  have named : ∀ t ∈ Reg.scratch, t.isPseudo = false := by decide
  exact ⟨named t member, nonzero_of_mem_scratch member⟩

end Machine

namespace Instr.Computes

variable {p : Instr} {op : Opcode} {d t : Reg} {xs : List Operand}

theorem isPlain (computes : p.Computes op d xs) : p.isPlain = true :=
  Instr.isPlain_of_command computes.command computes.stays

theorem isReturn_eq_false (computes : p.Computes op d xs) :
    (Command.ofOpcode op (.reg d :: xs)).isReturn = false := by
  rw [Bool.eq_false_iff]
  intro returns
  exact absurd (Command.isJump_of_isReturn returns) (by simp [computes.stays])

/-- The registers that an operation reads do not depend on where it goes. -/
theorem uses_eq {h : Instr} (computes : p.Computes op d xs) (computesHere : h.Computes op t xs) :
    h.uses = p.uses := by
  rw [uses_of_command computes.command, uses_of_command computesHere.command]
  unfold Command.uses Command.readSites
  rw [computes.isReturn_eq_false, computesHere.isReturn_eq_false,
    Command.form?_ofOpcode computes.nonzero, Command.form?_ofOpcode computesHere.nonzero]
  rcases computes.computes.form with ⟨one, entry⟩ | ⟨two, entry⟩
  · rw [one, entry]
    rfl
  · rw [two, entry]
    rfl

/-- Where an operation stands, its destination may be named, and any temporary. -/
theorem named {code : List Instr} (computes : p.Computes op d xs) (scratch : t ∈ Reg.scratch)
    (member : p ∈ code) (r : Reg) (isNamed : r = d ∨ r = t) :
    r ∈ Reg.scratch ∨ ∃ p ∈ code, r ∈ p.names := by
  rcases isNamed with rfl | rfl
  · refine Or.inr ⟨p, member, ?_⟩
    rw [Instr.names_of_command computes.command]
    simp [Command.names, Command.ofOpcode, Operand.base?]
  · exact Or.inl scratch

end Instr.Computes

namespace Sharing

variable {V M : Type} {S : Semantics V M} {t d : Reg} {x : V} {op : Opcode} {xs : List Operand}
variable {s : MachineState V M} {p h c : Instr} {a b : List Instr} {v : View}

/-- What holds of an operation also holds of the same operation into a temporary, and of a copy from
there. -/
def Shareable (P : Instr → Prop) : Prop :=
  ∀ {p q : Instr} {op : Opcode} {d t : Reg} {xs : List Operand}, P p → p.Computes op d xs →
    t ∈ Reg.scratch → q.command? = some (.copy d t) ∨ q.Computes op t xs → P q

theorem shareable_runs : Shareable Machine.Runs := by
  intro p q op d t xs runs computes scratch becomes
  have free := Machine.target_of_mem_scratch scratch
  obtain ⟨x, y, rfl, member, target, left, right⟩ :=
    (runs _ computes.command).of_computes computes.computes
  rcases becomes with copies | computesHere
  · exact Machine.runs_of_command copies (Machine.understood_copy target free.1)
  · exact Machine.runs_of_command computesHere.command (.compute op t x y member free left right)

theorem isPlain_copy {q : Instr} (command : q.command? = some (.copy d t)) : q.isPlain = true :=
  Instr.isPlain_of_command command rfl

namespace Shared

theorem length_eq (shared : Shared S t x a b s) : b.length = a.length := by
  induction shared with
  | nil => rfl
  | keep _ _ _ ih | copy _ _ _ _ _ ih => rw [List.length_cons, List.length_cons, ih]

/-- Code with copies needs the register that it copies, and nothing else that is new. -/
theorem live (shared : Shared S t x a b s) {reserved out : FactSet Reg} {unresolved : Bool}
    {r : Reg} (member : r ∈ Liveness.liveIn reserved unresolved out b) :
    r = t ∨ r ∈ Liveness.liveIn reserved unresolved out a := by
  induction shared with
  | nil => exact Or.inr member
  | keep _ _ shared ih =>
    rw [Liveness.mem_liveIn_cons, Liveness.usesBefore_of_length shared.length_eq] at member
    rw [Liveness.mem_liveIn_cons]
    rcases member with read | ⟨later, kept⟩
    · exact Or.inr (Or.inl read)
    · exact (ih later).imp_right fun live => Or.inr ⟨live, kept⟩
  | copy computes _ _ command _ ih =>
    rw [Liveness.mem_liveIn_cons,
      Liveness.usesBefore_of_stays (Instr.isJump_of_isPlain (isPlain_copy command)),
      uses_of_command command, Command.uses_copy, defs_of_command command,
      Command.defs_copy] at member
    rw [Liveness.mem_liveIn_cons, computes.defs.1]
    rcases member with read | ⟨later, kept⟩
    · exact Or.inl (List.mem_singleton.1 read)
    · exact (ih later).imp_right fun live => Or.inr ⟨live, kept⟩

theorem reworked (shared : Shared S t x a b s) : Reworked a b := by
  induction shared with
  | nil => exact .refl []
  | keep _ _ _ ih => exact ih.cons _
  | @copy p q op d xs a b s computes _ _ command _ ih =>
    have exchange : Reworked ([] ++ [p] ++ a) ([] ++ [q] ++ a) := .window [] a (by simp)
      (by simpa using computes.isPlain) (by simpa using isPlain_copy command)
    exact exchange.trans (ih.cons q)

/-- The copies stem from the computations in their places. -/
theorem stems (shared : Shared S t x a b s) (scratch : t ∈ Reg.scratch) : Stems a b := by
  induction shared with
  | nil => exact .refl []
  | @keep p a b s _ _ _ ih =>
    have here : Stems (p :: a) [p] := .of_content (by simp)
    exact here.cons (ih.mono (fun _ => List.mem_cons_of_mem p) fun _ inside => inside)
  | @copy p q op d xs a b s computes _ _ command _ ih =>
    have here : Stems (p :: a) [q] := .copy command (computes.named scratch (List.mem_cons_self ..))
    exact here.cons (ih.mono (fun _ => List.mem_cons_of_mem p) fun _ inside => inside)

theorem all {P : Instr → Prop} (shareable : Shareable P) (shared : Shared S t x a b s)
    (scratch : t ∈ Reg.scratch) (before : ∀ p ∈ a, P p) : ∀ p ∈ b, P p := by
  induction shared with
  | nil => exact before
  | keep _ _ _ ih =>
    obtain ⟨first, later⟩ := List.forall_mem_cons.1 before
    exact List.forall_mem_cons.2 ⟨first, ih later⟩
  | copy computes _ _ command _ ih =>
    obtain ⟨first, later⟩ := List.forall_mem_cons.1 before
    exact List.forall_mem_cons.2
      ⟨shareable first computes scratch (Or.inl command), ih later⟩

end Shared

namespace Hoists

/-- The register is not needed before the value is computed into it. -/
theorem live (hoists : Hoists p h c op d xs t) (shared : Shared S t x a b s)
    {reserved out : FactSet Reg} {unresolved : Bool} {r : Reg} (free : t ∉ reserved)
    (live : r ∈ Liveness.liveIn reserved unresolved out (h :: c :: b)) :
    r ∈ Liveness.liveIn reserved unresolved out (p :: a) := by
  obtain ⟨computes, computesHere, -, copies⟩ := hoists
  have uses : ∀ {q : Instr} {rest : List Instr}, q.isPlain = true →
      Liveness.usesBefore unresolved q rest = q.uses :=
    fun plain => Liveness.usesBefore_of_stays (Instr.isJump_of_isPlain plain)
  rw [Liveness.mem_liveIn_cons, Liveness.mem_liveIn_cons, uses computesHere.isPlain,
    uses (isPlain_copy copies), computes.uses_eq computesHere, uses_of_command copies,
    Command.uses_copy, defs_of_command copies, Command.defs_copy, computesHere.defs.1] at live
  rw [Liveness.mem_liveIn_cons, uses computes.isPlain, computes.defs.1]
  rcases live with read | ⟨later, kept⟩
  · exact Or.inl read
  · have elsewhere : r ≠ t := by
      rintro rfl
      simp [free] at kept
    rcases later with copied | ⟨live, keeps⟩
    · exact absurd (List.mem_singleton.1 copied) elsewhere
    · exact Or.inr ⟨(shared.live live).resolve_left elsewhere, keeps⟩

theorem reworked (hoists : Hoists p h c op d xs t) (shared : Shared S t x a b s) :
    Reworked (p :: a) (h :: c :: b) := by
  have exchange : Reworked ([] ++ [p] ++ a) ([] ++ [h, c] ++ a) := by
    refine .window [] a (by simp) (by simpa using hoists.computes.isPlain) ?_
    simpa using ⟨hoists.computesHere.isPlain, isPlain_copy hoists.copies⟩
  exact exchange.trans ((shared.reworked.cons c).cons h)

/-- The computation and its copy stem from the operation in their place. -/
theorem stems (hoists : Hoists p h c op d xs t) (shared : Shared S t x a b s)
    (scratch : t ∈ Reg.scratch) : Stems (p :: a) (h :: c :: b) := by
  obtain ⟨computes, computesHere, -, copies⟩ := hoists
  have named := computes.named scratch (List.mem_cons_self : p ∈ p :: a)
  have first : Stems (p :: a) [h] := by
    refine .same (List.mem_cons_self ..) computes.command computesHere.command ?_
      fun r isNamed => ?_
    · rw [Command.form?_ofOpcode computes.nonzero, Command.form?_ofOpcode computesHere.nonzero]
    · rcases List.mem_cons.1 isNamed with isNew | old
      · exact named r (Or.inr isNew)
      · refine Or.inr ⟨p, List.mem_cons_self .., ?_⟩
        rw [Instr.names_of_command computes.command]
        exact List.mem_cons_of_mem _ old
  have second : Stems (p :: a) [c] := .copy copies named
  exact first.cons (second.cons
    ((shared.stems scratch).mono (fun _ => List.mem_cons_of_mem p) fun _ inside => inside))

theorem all {P : Instr → Prop} (shareable : Shareable P) (hoists : Hoists p h c op d xs t)
    (shared : Shared S t x a b s) (scratch : t ∈ Reg.scratch) (before : ∀ q ∈ p :: a, P q) :
    ∀ q ∈ h :: c :: b, P q := by
  obtain ⟨first, later⟩ := List.forall_mem_cons.1 before
  have computes := hoists.computes
  exact List.forall_mem_cons.2 ⟨shareable first computes scratch (Or.inr hoists.computesHere),
    List.forall_mem_cons.2 ⟨shareable first computes scratch (Or.inl hoists.copies),
      shared.all shareable scratch later⟩⟩

end Hoists

namespace Shares

variable {code code' : List Instr}

/-- Sharing a value improves the code. -/
theorem improves {I : Interpretation V M} (exec : S.exec = I.exec) (goes : S.goes = I.decide)
    (shares : Shares v code code') : Improves I v.reserved v.liveOut code code' := by
  have unseen := shares.unseen S
  obtain @⟨before, mid, mid', after, p, h, c, op, d, t, xs, -, -, free, -, hoists, shared⟩ := shares
  have shared := shared (Machine.semantics fun _ => none) ⟨fun _ => 0, fun _ => 0⟩
  refine ⟨fun s => ⟨?_, fun r live => ?_⟩, fun here s => ?_, fun r live => ?_⟩
  · simpa only [Semantics.execAll_eq exec] using unseen.mem s
  · have same := unseen.regs s r (Or.inl live)
    simp only [Semantics.execAll_eq exec] at same
    exact I.read_congr same
  · simpa only [Semantics.leave_eq exec goes] using (unseen.leaves here s).symm
  · rw [Liveness.liveIn_append, Liveness.liveIn_append] at live ⊢
    exact Liveness.liveIn_mono (fun _ => hoists.live shared free) live

theorem reworked (shares : Shares v code code') : Reworked code code' := by
  obtain @⟨before, mid, mid', after, p, h, c, op, d, t, xs, -, -, -, -, hoists, shared⟩ := shares
  have shared := shared (Machine.semantics fun _ => none) ⟨fun _ => 0, fun _ => 0⟩
  exact (hoists.reworked shared).around before after

theorem all {P : Instr → Prop} (shareable : Shareable P) (shares : Shares v code code')
    (holds : ∀ q ∈ code, P q) : ∀ q ∈ code', P q := by
  obtain @⟨before, mid, mid', after, p, h, c, op, d, t, xs, scratch, -, -, -, hoists, shared⟩ :=
    shares
  have shared := shared (Machine.semantics fun _ => none) ⟨fun _ => 0, fun _ => 0⟩
  intro q member
  rcases List.mem_append.1 member with front | back
  · rcases List.mem_append.1 front with first | second
    · exact holds q (List.mem_append_left _ (List.mem_append_left _ first))
    · refine hoists.all shareable shared scratch (fun q inside => ?_) q second
      exact holds q (List.mem_append_left _ (List.mem_append_right _ inside))
  · exact holds q (List.mem_append_right _ back)

end Shares

/-- Sharing a value refits the code. -/
theorem Shares.refits {code code' : List Instr} (shares : Shares v code code') :
    Refits v code code' := fun runs =>
  ⟨fun places => shares.improves (S := Machine.semantics places) rfl rfl, shares.reworked,
    shares.all shareable_runs runs⟩

/-- Sharing a value lightens the code. -/
theorem Shares.lightens {code code' : List Instr} (shares : Shares v code code') :
    Lightens v code code' := by
  obtain @⟨before, mid, mid', after, p, h, c, op, d, t, xs, scratch, -, free, -, hoists, shared⟩ :=
    shares
  have shared := shared (Machine.semantics fun _ => none) ⟨fun _ => 0, fun _ => 0⟩
  have reworked := (hoists.reworked shared).around before after
  refine ⟨reworked, (hoists.stems shared scratch).around before after, fun last r live => ?_⟩
  have last' := reworked.jumpsLast last
  rw [List.append_assoc] at last last' live ⊢
  have behind : ∀ {code : List Instr}, code ≠ [] → JumpsLast (before ++ (code ++ after)) →
      JumpsLast (code ++ after) :=
    fun nonempty last => (JumpsLast.of_append (by simp [nonempty]) last).2
  rw [Liveness.liveIn_append_of_last last',
    Liveness.liveIn_append_of_last (behind (by simp) last')] at live
  rw [Liveness.liveIn_append_of_last last, Liveness.liveIn_append_of_last (behind (by simp) last)]
  exact Liveness.liveIn_mono (fun _ => hoists.live shared free) live

/-- Common subexpression elimination lightens the code of a block. -/
theorem sharing_lightens (block : BlockCode) : Lightens v block.code (Sharing.run v block).code :=
  Lightens.exhaust (fun _ _ stepped => (step_shares stepped).lightens) _ block

/-- Common subexpression elimination refits the code of a block. -/
theorem sharing_refits (block : BlockCode) : Refits v block.code (Sharing.run v block).code :=
  Refits.exhaust (fun _ _ stepped => (step_shares stepped).refits) _ block

end Sharing

end MipsFlow
