import Mathlib.Computability.Primrec.List
import Mathlib.Computability.TuringMachine.StackTuringMachine
import MipsFlow.Optimizer.Workspace
import MipsFlow.Proofs.BlockPass
import MipsFlow.Proofs.Linking
import MipsFlow.Proofs.Numbering

/-!
# Common subexpression elimination is invisible

A step of the pass computes a value once, into a free temporary, and copies it from there
(`Sharing.Shares`). Behind the place of the computation, the code with the copies differs from the
old code in that temporary only (`Shared.follows`), as long as the commands that became copies
computed the same value. They did, because they have the same number (`followAll_sound`). Behind
the last copy nobody reads the temporary before it is written, because it was dead when it was
chosen and nothing before wrote it.

So behind the block nobody can tell the new code from the old one (`Unseen`), whatever the commands
mean, as long as their meaning keeps to the table of operand roles.
-/

namespace MipsFlow

variable {V M : Type}

namespace Instr.Computes

variable {p q : Instr} {op : Opcode} {d t : Reg} {xs : List Operand}

theorem stays (computes : p.Computes op d xs) :
    (Command.ofOpcode op (.reg d :: xs)).isJump = false :=
  Command.isJump_of_isPure (Command.isPure_of_computes computes.nonzero computes.computes)

theorem unique {op' : Opcode} {d' : Reg} {xs' : List Operand} (computes : p.Computes op d xs)
    (computes' : p.Computes op' d' xs') : op' = op ∧ xs' = xs := by
  have same := computes'.command.symm.trans computes.command
  simp only [Command.ofOpcode, Option.some.injEq, Command.mk.injEq, Mnemonic.known.injEq,
    List.cons.injEq] at same
  exact ⟨same.1, same.2.2⟩

theorem execInstr (S : Semantics V M) (computes : p.Computes op d xs) (s : MachineState V M) :
    S.execInstr p s = s.set d (S.apply op xs s) := by
  rw [S.execInstr_of_command computes.command]
  exact S.computes s computes.nonzero computes.computes computes.values

/-- An operation that goes to another register computes the same. -/
theorem redirect (computes : p.Computes op d xs) (nonzero : t.isZero = false)
    (redirected : q.command? = p.command?.map fun c => { c with args := c.args.set 0 (.reg t) }) :
    q.Computes op t xs := by
  rw [computes.command, Option.map_some] at redirected
  exact ⟨redirected, nonzero, computes.computes, computes.values⟩

end Instr.Computes

namespace Sharing

/-! ## Code with copies -/

/-- From the state `s`, the first piece of code computes `x` wherever the second one copies it from
the register `t`; elsewhere they are the same, and do not involve that register. -/
inductive Shared (S : Semantics V M) (t : Reg) (x : V) :
    List Instr → List Instr → MachineState V M → Prop
  | nil {s : MachineState V M} : Shared S t x [] [] s
  | keep {p : Instr} {a b : List Instr} {s : MachineState V M} : t ∉ p.uses → t ∉ p.clobbers →
    Shared S t x a b (S.execInstr p s) → Shared S t x (p :: a) (p :: b) s
  | copy {p q : Instr} {op : Opcode} {d : Reg} {xs : List Operand} {a b : List Instr}
    {s : MachineState V M} : p.Computes op d xs → d ≠ t → S.apply op xs s = x →
    q.command? = some (.copy d t) → Shared S t x a b (S.execInstr p s) →
    Shared S t x (p :: a) (q :: b) s

/-- The instruction `p` computes a value into `d`; `h` computes it into `t`, and `c` copies it from
there. -/
structure Hoists (p h c : Instr) (op : Opcode) (d : Reg) (xs : List Operand) (t : Reg) : Prop where
  computes : p.Computes op d xs
  computesHere : h.Computes op t xs
  other : d ≠ t
  copies : c.command? = some (.copy d t)

/-- The second code is the first one with a value computed once, before the first command that
computed it, into a temporary that is free from there to the last of them. -/
inductive Shares (v : View) : List Instr → List Instr → Prop
  | mk {before mid mid' after : List Instr} {p h c : Instr} {op : Opcode} {d t : Reg}
    {xs : List Operand} : t ∈ Reg.scratch →
    t ∉ Liveness.liveIn v.reserved v.unresolved v.liveOut ((p :: mid) ++ after) →
    t ∉ v.reserved → (∀ q ∈ p :: mid, t ∉ q.clobbers) → Hoists p h c op d xs t →
    (∀ {V M : Type} (S : Semantics V M) (s : MachineState V M),
      Shared S t (S.apply op xs (S.execAll before s)) mid mid'
        (S.execInstr p (S.execAll before s))) →
    Shares v (before ++ (p :: mid) ++ after) (before ++ (h :: c :: mid') ++ after)

variable {S : Semantics V M} {t d : Reg} {x : V} {op : Opcode} {xs : List Operand}
variable {s u : MachineState V M} {p : Instr} {a b : List Instr}

theorem execInstr_copy {q : Instr} (command : q.command? = some (.copy d t)) :
    S.execInstr q u = u.set d (u.read S.zero t) := by
  rw [S.execInstr_of_command command, S.copies]

/-- A command that does not involve the register leaves the states alike but for it. -/
theorem agree_keep (scratch : t ∈ Reg.scratch) (unread : t ∉ p.uses) (unwritten : t ∉ p.clobbers)
    (agree : s.AgreeBut t u) (holds : u.read S.zero t = x) :
    (S.execInstr p s).AgreeBut t (S.execInstr p u) ∧ (S.execInstr p u).read S.zero t = x := by
  refine ⟨(S.agree_execInstr scratch unread agree).1, ?_⟩
  rw [← holds, MachineState.read, MachineState.read, S.regs_execInstr u unwritten]

/-- A copy in the place of a command that computes the value leaves them alike, too. -/
theorem agree_copy {q : Instr} (computes : p.Computes op d xs) (other : d ≠ t)
    (same : S.apply op xs s = x) (command : q.command? = some (.copy d t))
    (agree : s.AgreeBut t u) (holds : u.read S.zero t = x) :
    (S.execInstr p s).AgreeBut t (S.execInstr q u) ∧ (S.execInstr q u).read S.zero t = x := by
  have copied : S.execInstr q u = u.set d x := by rw [execInstr_copy command, holds]
  rw [computes.execInstr, same, copied, MachineState.read_set_of_ne other.symm, holds]
  exact ⟨agree.set d x, rfl⟩

/-- Where the register holds the value, code with copies of it leads to the same states but for
the register, and decides the same. -/
theorem Shared.follows (shared : Shared S t x a b s) (scratch : t ∈ Reg.scratch)
    (agree : s.AgreeBut t u) (holds : u.read S.zero t = x) :
    (S.execAll a s).AgreeBut t (S.execAll b u) ∧
      ∀ here, S.leave here a s = S.leave here b u := by
  induction shared generalizing u with
  | nil => exact ⟨agree, fun _ => rfl⟩
  | @keep p a b s unread unwritten _ ih =>
    obtain ⟨-, -, decides⟩ := S.agree_execInstr scratch unread agree
    obtain ⟨agree', kept⟩ := agree_keep scratch unread unwritten agree holds
    obtain ⟨ends, leaves⟩ := ih agree' kept
    refine ⟨ends, fun here => ?_⟩
    rw [Semantics.leave_cons, Semantics.leave_cons, leaves, decides]
  | @copy p q op d xs a b s computes other same command _ ih =>
    obtain ⟨agree', kept⟩ := agree_copy computes other same command agree holds
    obtain ⟨ends, leaves⟩ := ih agree' kept
    refine ⟨ends, fun here => ?_⟩
    rw [Semantics.leave_cons, Semantics.leave_cons, leaves,
      S.decideInstr_of_stays computes.command computes.stays, S.decideInstr_of_stays command rfl]

/-- Behind the computation and its copy, the states are alike but for the register, which holds the
value. -/
theorem Hoists.agree {h c : Instr} (S : Semantics V M) (hoists : Hoists p h c op d xs t)
    (s : MachineState V M) :
    (S.execInstr p s).AgreeBut t (S.execInstr c (S.execInstr h s)) ∧
      (S.execInstr c (S.execInstr h s)).read S.zero t = S.apply op xs s := by
  obtain ⟨computes, computesHere, other, copies⟩ := hoists
  let x := S.apply op xs s
  have copied : S.execInstr c (S.execInstr h s) = (s.set t x).set d x := by
    rw [execInstr_copy copies, computesHere.execInstr,
      MachineState.read_set_self computesHere.nonzero]
  constructor
  · rw [copied, computes.execInstr]
    exact (MachineState.AgreeBut.set_right s t x).set d x
  · rw [copied, MachineState.read_set_of_ne other.symm,
      MachineState.read_set_self computesHere.nonzero]

/-- Computing the value into the register first, and copying it, makes no other difference. -/
theorem Hoists.follows {h c : Instr} (hoists : Hoists p h c op d xs t) (scratch : t ∈ Reg.scratch)
    (shared : Shared S t (S.apply op xs s) a b (S.execInstr p s)) :
    (S.execAll (p :: a) s).AgreeBut t (S.execAll (h :: c :: b) s) ∧
      ∀ here, S.leave here (p :: a) s = S.leave here (h :: c :: b) s := by
  obtain ⟨agree, holds⟩ := hoists.agree S s
  obtain ⟨ends, leaves⟩ := shared.follows scratch agree holds
  refine ⟨ends, fun here => ?_⟩
  simp only [Semantics.leave_cons, leaves, Option.or_none,
    S.decideInstr_of_stays hoists.computes.command hoists.computes.stays,
    S.decideInstr_of_stays hoists.computesHere.command hoists.computesHere.stays,
    S.decideInstr_of_stays hoists.copies rfl]

/-! ## What can be seen of a block -/

/-- Behind the block nobody can tell the one code from the other: memory, the decision of the jump,
and the registers that are live there or reserved are the same. -/
structure Unseen (S : Semantics V M) (v : View) (code code' : List Instr) : Prop where
  mem : ∀ s, (S.execAll code s).mem = (S.execAll code' s).mem
  regs : ∀ s r, r ∈ v.liveOut ∨ r ∈ v.reserved →
    (S.execAll code s).regs r = (S.execAll code' s).regs r
  leaves : ∀ here s, S.leave here code s = S.leave here code' s

variable {v : View} {code code' code'' : List Instr}

theorem Unseen.refl (code : List Instr) : Unseen S v code code :=
  ⟨fun _ => rfl, fun _ _ _ => rfl, fun _ _ => rfl⟩

theorem Unseen.trans (first : Unseen S v code code') (second : Unseen S v code' code'') :
    Unseen S v code code'' :=
  ⟨fun s => (first.mem s).trans (second.mem s),
    fun s r seen => (first.regs s r seen).trans (second.regs s r seen),
    fun here s => (first.leaves here s).trans (second.leaves here s)⟩

/-- A register that is not live before some code, and not written in a first part of it, is not
read there, and not live behind it. -/
theorem unread_of_not_live {reserved out : FactSet Reg} {unresolved : Bool} {rest : List Instr}
    (unwritten : ∀ q ∈ a, t ∉ q.clobbers)
    (dead : t ∉ Liveness.liveIn reserved unresolved out (a ++ rest)) :
    (∀ q ∈ a, t ∉ q.uses) ∧ t ∉ Liveness.liveIn reserved unresolved out rest := by
  induction a with
  | nil => exact ⟨by simp, dead⟩
  | cons p more ih =>
    obtain ⟨unwrittenHere, unwrittenLater⟩ := List.forall_mem_cons.1 unwritten
    have undefined : t ∉ p.defs := by
      intro written
      unfold Instr.defs at written
      unfold Instr.clobbers at unwrittenHere
      cases command : p.command? with
      | none => simp [command] at written
      | some c =>
        rw [command, Option.elim_some] at written unwrittenHere
        exact unwrittenHere (Command.mem_clobbers_of_mem_defs written)
    rw [List.cons_append, Liveness.mem_liveIn_cons, not_or, not_and] at dead
    obtain ⟨unread, behind⟩ := ih unwrittenLater fun live => dead.2 live (Or.inr undefined)
    have unreadHere : t ∉ p.uses := fun read => dead.1 (Liveness.mem_usesBefore_of_mem_uses read)
    exact ⟨List.forall_mem_cons.2 ⟨unreadHere, unread⟩, behind⟩

/-- Sharing a value cannot be seen behind the block. -/
theorem Shares.unseen (S : Semantics V M) (shares : Shares v code code') :
    Unseen S v code code' := by
  obtain @⟨before, mid, mid', after, p, h, c, op, d, t, xs, scratch, dead, free, unwritten, hoists,
    shared⟩ := shares
  obtain ⟨-, deadBehind⟩ := unread_of_not_live unwritten dead
  have inside := fun s => hoists.follows scratch (shared S s)
  have behind := fun s => S.agree_execAll scratch deadBehind (inside s).1
  refine ⟨fun s => ?_, fun s r seen => ?_, fun here s => ?_⟩
  · simp only [S.execAll_append]
    exact (behind s).1.mem
  · simp only [S.execAll_append]
    obtain ⟨agree, same, -⟩ := behind s
    by_cases isScratch : r = t
    · subst isScratch
      rw [same (seen.resolve_right free)]
    · exact agree.regs r isScratch
  · simp only [S.leave_append, S.execAll_append]
    rw [(behind s).2.2, (inside s).2]

/-! ## Where the values are computed -/

/-- What is collected from numbered elements, with their numbers, is in order. -/
theorem pairwise_filterMap_zipIdx {α β : Type} {collect : α × Nat → Option (β × Nat)}
    (keeps : ∀ w found, collect w = some found → found.2 = w.2) (xs : List α) :
    (xs.zipIdx.filterMap collect).Pairwise fun a b => a.2 < b.2 := by
  have ordered : xs.zipIdx.Pairwise fun a b => a.2 < b.2 := by
    rw [← List.pairwise_map (R := (· < ·)), List.zipIdx_map_snd]
    exact List.pairwise_lt_range'
  refine List.pairwise_filterMap.2
    (ordered.imp fun {a b} before first isFirst second isSecond => ?_)
  rw [keeps a first isFirst, keeps b second isSecond]
  exact before

/-- The positions of a value are in order, and the commands there have the same number. -/
theorem of_mem_occurrences {positions : List Nat} (member : positions ∈ occurrences v code) :
    positions.Pairwise (· < ·) ∧ ∃ number, ∀ i ∈ positions, ∃ p,
      code[i]? = some p ∧ (Numbering.initial.followAll code).1[i]? = some (some number) ∧
        ∃ c dst args, p.command? = some c ∧ c.args = .reg dst :: args ∧ dst ∉ v.reserved := by
  unfold occurrences at member
  obtain ⟨number, -, rfl⟩ := List.mem_map.1 member
  refine ⟨?_, number, fun i isPosition => ?_⟩
  · refine List.pairwise_map.2 (List.Pairwise.filter _ (pairwise_filterMap_zipIdx ?_ _))
    intro w found collected
    simp only at collected
    split at collected
    · split at collected
      · contradiction
      · cases collected
        rfl
    · contradiction
  · obtain ⟨⟨m, k⟩, present, rfl⟩ := List.mem_map.1 isPosition
    obtain ⟨numbered, same⟩ := List.mem_filter.1 present
    obtain ⟨⟨⟨p, n⟩, j⟩, inside, found⟩ := List.mem_filterMap.1 numbered
    have here : (code.zip (Numbering.initial.followAll code).1)[j]? = some (p, n) :=
      List.mem_zipIdx_iff_getElem?.1 inside
    obtain ⟨isInstr, isNumber⟩ := List.getElem?_zip_eq_some.1 here
    simp only at found
    split at found
    · next dst args _ isArgs =>
      obtain ⟨c, command, args⟩ := Option.map_eq_some_iff.1 isArgs
      split at found
      · contradiction
      · next free =>
        cases found
        refine ⟨p, isInstr, ?_, c, _, _, command, args, by simpa using free⟩
        rw [isNumber, ← of_decide_eq_true same]
    · contradiction

/-- Positions in order lie between the first and the last. -/
theorem le_last {first : Nat} {others : List Nat} (nonempty : others ≠ [])
    (ordered : (first :: others).Pairwise (· < ·)) :
    first < others.getLast nonempty ∧
      ∀ i ∈ first :: others, first ≤ i ∧ i ≤ others.getLast nonempty := by
  obtain ⟨least, orderedOthers⟩ := List.pairwise_cons.1 ordered
  have below := least _ (List.getLast_mem nonempty)
  have split := List.dropLast_append_getLast nonempty
  refine ⟨below, fun i member => ?_⟩
  rcases List.mem_cons.1 member with rfl | later
  · exact ⟨Nat.le_refl _, below.le⟩
  · refine ⟨(least i later).le, ?_⟩
    rw [← split] at later orderedOthers
    rcases List.mem_append.1 later with front | back
    · exact ((List.pairwise_append.1 orderedOthers).2.2 i front _ (by simp)).le
    · exact (List.mem_singleton.1 back).le

/-- The parts of some code around a position and up to another one. -/
theorem split_at {first last : Nat} (here : code[first]? = some p) (before : first < last)
    (inside : last < code.length) :
    ∃ front mid after, code = front ++ (p :: mid) ++ after ∧ front.length = first ∧
      first + mid.length = last := by
  obtain ⟨bound, rfl⟩ := List.getElem?_eq_some_iff.1 here
  refine ⟨code.take first, (code.drop (first + 1)).take (last - first), code.drop (last + 1), ?_,
    ?_, ?_⟩
  · have rest : code.drop (last + 1) = (code.drop (first + 1)).drop (last - first) := by
      rw [List.drop_drop]
      congr 1
      omega
    rw [rest, List.append_assoc, List.cons_append, List.take_append_drop,
      ← List.drop_eq_getElem_cons bound, List.take_append_drop]
  · rw [List.length_take]
    omega
  · rw [List.length_take, List.length_drop]
    omega

/-- A free register is a scratch register that is not written around the positions of the value,
and not live before them. -/
theorem of_scratch? {first last : Nat} (found : scratch? v code first last = some t) :
    t ∈ Reg.scratch ∧ t ∉ v.reserved ∧
      t ∉ Liveness.liveIn v.reserved v.unresolved v.liveOut (code.drop first) ∧
      ∀ p ∈ (code.drop first).take (last + 1 - first), t ∉ p.clobbers := by
  unfold scratch? at found
  have accepted := List.find?_some found
  simp only [isFree, Bool.and_eq_true, Bool.not_eq_true', List.any_eq_false] at accepted
  obtain ⟨⟨-, dead⟩, unwritten⟩ := accepted
  obtain ⟨free, notLive⟩ := Liveness.not_mem_liveIn_of_dead dead
  refine ⟨List.mem_of_find?_eq_some found, free, notLive, ?_⟩
  intro p member written
  exact unwritten p member (by simpa [Instr.mayWrite] using written)

/-! ## The new code -/

/-- What becomes of the instruction at a position. -/
def hoisted (v : View) (next : Nat) (t : Reg) (positions : List Nat) (at_ : Instr × Nat) :
    List Instr :=
  match positions.idxOf? at_.2 with
  | none => [at_.1]
  | some j =>
    let copy := replaceByCopy v t (next + (positions.length - j)) at_.1
    if j = 0 then
      [v.noted (redirect (at_.1.clone next) t) ("common subexpression hoisted into " ++ t.name),
        copy]
    else [copy]

theorem hoist_eq (v : View) (next : Nat) (t : Reg) (positions : List Nat) (code : List Instr) :
    hoist v next t positions code = code.zipIdx.flatMap (hoisted v next t positions) := rfl

variable {next k : Nat} {positions : List Nat}

/-- Code without positions of the value stays. -/
theorem hoisted_of_not_mem (code : List Instr)
    (elsewhere : ∀ i, k ≤ i → i < k + code.length → i ∉ positions) :
    (code.zipIdx k).flatMap (hoisted v next t positions) = code := by
  induction code generalizing k with
  | nil => rfl
  | cons p rest ih =>
    have here : positions.idxOf? k = none :=
      List.idxOf?_eq_none_iff.2 (elsewhere k (Nat.le_refl _) (by simp))
    have later := ih (k := k + 1) fun i above below =>
      elsewhere i (by omega) (by simp only [List.length_cons]; omega)
    rw [List.zipIdx_cons, List.flatMap_cons, later]
    simp [hoisted, here]

theorem command?_replaceByCopy (computes : p.Computes op d xs) (id : Nat) :
    (replaceByCopy v t id p).command? = some (.copy d t) := by
  unfold replaceByCopy
  rw [computes.command]
  simp [Command.ofOpcode]

theorem command?_redirect (p : Instr) (t : Reg) :
    (redirect p t).command? =
      p.command?.map fun c => { c with args := c.args.set 0 (.reg t) } := by
  unfold redirect
  cases command : p.command? with
  | none => exact command
  | some c => rfl

/-- Behind the first position, the code with copies shares the value. -/
theorem shared_hoisted {first : Nat} {others : List Nat} (behind : first < k)
    (unread : ∀ p ∈ code, t ∉ p.uses) (unwritten : ∀ p ∈ code, t ∉ p.clobbers)
    (same : ∀ i p, code[i]? = some p → k + i ∈ first :: others → ∃ op d xs, p.Computes op d xs ∧
      S.apply op xs (S.execAll (code.take i) s) = x) :
    Shared S t x code ((code.zipIdx k).flatMap (hoisted v next t (first :: others))) s := by
  induction code generalizing k s with
  | nil => exact .nil
  | cons p rest ih =>
    obtain ⟨unreadHere, unreadLater⟩ := List.forall_mem_cons.1 unread
    obtain ⟨unwrittenHere, unwrittenLater⟩ := List.forall_mem_cons.1 unwritten
    have later := ih (k := k + 1) (s := S.execInstr p s) (by omega) unreadLater unwrittenLater
      fun i q here position =>
        same (i + 1) q here (by rwa [Nat.add_assoc, Nat.add_comm 1] at position)
    rw [List.zipIdx_cons, List.flatMap_cons]
    have index : (first :: others).idxOf? k = (others.idxOf? k).map (· + 1) := by
      rw [List.idxOf?_cons, if_neg (by simpa using behind.ne)]
    cases found : others.idxOf? k with
    | none =>
      have stays : hoisted v next t (first :: others) (p, k) = [p] := by
        simp [hoisted, index, found]
      rw [stays]
      exact .keep unreadHere unwrittenHere later
    | some j =>
      have member : k ∈ others := by
        by_contra missing
        rw [List.idxOf?_eq_none_iff.2 missing] at found
        contradiction
      obtain ⟨op, d, xs, computes, isValue⟩ := same 0 p rfl (List.mem_cons_of_mem _ member)
      have copied : hoisted v next t (first :: others) (p, k) =
          [replaceByCopy v t (next + ((first :: others).length - (j + 1))) p] := by
        simp [hoisted, index, found]
      have other : d ≠ t := by
        rintro rfl
        exact unwrittenHere (by simp [computes.defs.2])
      rw [copied]
      exact .copy computes other isValue (command?_replaceByCopy computes _) later

section Hoisting

variable {before mid after : List Instr} {others : List Nat}

/-- The new code, piece by piece. -/
theorem hoist_split (between : ∀ i ∈ others, before.length < i ∧ i ≤ before.length + mid.length) :
    hoist v next t (before.length :: others) (before ++ (p :: mid) ++ after) =
      before ++ (v.noted (redirect (p.clone next) t)
          ("common subexpression hoisted into " ++ t.name) ::
          replaceByCopy v t (next + (others.length + 1)) p ::
          (mid.zipIdx (before.length + 1)).flatMap
            (hoisted v next t (before.length :: others))) ++ after := by
  have inside : ∀ i ∈ before.length :: others,
      before.length ≤ i ∧ i ≤ before.length + mid.length := by
    refine List.forall_mem_cons.2 ⟨⟨Nat.le_refl _, Nat.le_add_right ..⟩, fun i position => ?_⟩
    exact ⟨(between i position).1.le, (between i position).2⟩
  rw [hoist_eq, List.zipIdx_append, List.zipIdx_append, List.flatMap_append, List.flatMap_append,
    hoisted_of_not_mem before, hoisted_of_not_mem after, Nat.zero_add,
    List.zipIdx_cons, List.flatMap_cons]
  · have here : hoisted v next t (before.length :: others) (p, before.length) =
        [v.noted (redirect (p.clone next) t) ("common subexpression hoisted into " ++ t.name),
          replaceByCopy v t (next + (others.length + 1)) p] := by
      simp [hoisted, List.idxOf?_cons]
    rw [here]
    rfl
  · intro i above _ position
    have bound := (inside i position).2
    simp only [List.length_append, List.length_cons] at above
    omega
  · intro i _ bound position
    have above := (inside i position).1
    omega

/-- Where the positions of a value have the same number, the code behind the first of them shares
the value, from every state that the code before it leads to. -/
theorem shared_of_numbered (v : View) (next : Nat) (S : Semantics V M) (s : MachineState V M)
    {number : Nat} (computes : p.Computes op d xs)
    (numbered : ∀ i ∈ before.length :: others, (Numbering.initial.followAll
      (before ++ (p :: mid) ++ after)).1[i]? = some (some number))
    (unread : ∀ q ∈ mid, t ∉ q.uses) (unwritten : ∀ q ∈ mid, t ∉ q.clobbers) :
    Shared S t (S.apply op xs (S.execAll before s)) mid ((mid.zipIdx (before.length + 1)).flatMap
      (hoisted v next t (before.length :: others))) (S.execInstr p (S.execAll before s)) := by
  have here : (before ++ (p :: mid) ++ after)[before.length]? = some p := by simp
  obtain ⟨ν, -, looks⟩ := Numbering.followAll_sound Numbering.initial_sound (S := S) (s := s)
    (before ++ (p :: mid) ++ after)
  have value : ν number = .value (S.apply op xs (S.execAll before s)) := by
    obtain ⟨op', d', xs', computes', isValue⟩ :=
      looks _ _ p (numbered _ (List.mem_cons_self ..)) here
    obtain ⟨rfl, rfl⟩ := computes.unique computes'
    rwa [List.append_assoc, List.take_left] at isValue
  refine shared_hoisted (Nat.lt_succ_self _) unread unwritten fun i q isHere position => ?_
  have inside : i < mid.length := (List.getElem?_eq_some_iff.1 isHere).1
  have isThere : (before ++ (p :: mid) ++ after)[before.length + 1 + i]? = some q := by
    rw [List.append_assoc, List.getElem?_append_right (by omega), List.cons_append,
      show before.length + 1 + i - before.length = i + 1 by omega, List.getElem?_cons_succ,
      List.getElem?_append_left inside, isHere]
  have states : (before ++ (p :: mid) ++ after).take (before.length + 1 + i) =
      before ++ p :: mid.take i := by
    rw [List.append_assoc, Nat.add_assoc, List.take_length_add_append, Nat.add_comm 1,
      List.cons_append, List.take_succ_cons, List.take_append_of_le_length inside.le]
  obtain ⟨op', d', xs', computes', isValue⟩ := looks _ _ q (numbered _ position) isThere
  rw [states, S.execAll_append, S.execAll_cons, value, Seen.value.injEq] at isValue
  exact ⟨op', d', xs', computes', isValue.symm⟩

/-- Sharing a value between positions with the same number. -/
theorem hoist_shares {number : Nat}
    (between : ∀ i ∈ others, before.length < i ∧ i ≤ before.length + mid.length)
    (numbered : ∀ i ∈ before.length :: others, (Numbering.initial.followAll
      (before ++ (p :: mid) ++ after)).1[i]? = some (some number))
    (scratch : t ∈ Reg.scratch) (free : t ∉ v.reserved)
    (dead : t ∉ Liveness.liveIn v.reserved v.unresolved v.liveOut ((p :: mid) ++ after))
    (unwritten : ∀ q ∈ p :: mid, t ∉ q.clobbers) :
    Shares v (before ++ (p :: mid) ++ after)
      (hoist v next t (before.length :: others) (before ++ (p :: mid) ++ after)) := by
  have here : (before ++ (p :: mid) ++ after)[before.length]? = some p := by simp
  obtain ⟨unread, -⟩ := unread_of_not_live unwritten dead
  obtain ⟨-, unreadMid⟩ := List.forall_mem_cons.1 unread
  obtain ⟨unwrittenHere, unwrittenMid⟩ := List.forall_mem_cons.1 unwritten
  have nonzero : t.isZero = false := nonzero_of_mem_scratch scratch
  obtain ⟨op, d, xs, computes⟩ : ∃ op d xs, p.Computes op d xs := by
    -- what has a number is an operation, under any semantics
    obtain ⟨_, -, looks⟩ := Numbering.followAll_sound
      (S := Machine.semantics fun _ => none) (s := ⟨fun _ => 0, fun _ => 0⟩)
      Numbering.initial_sound (before ++ (p :: mid) ++ after)
    obtain ⟨op, d, xs, computes, -⟩ := looks _ _ p (numbered _ (List.mem_cons_self ..)) here
    exact ⟨op, d, xs, computes⟩
  have hoists : Hoists p
      (v.noted (redirect (p.clone next) t) ("common subexpression hoisted into " ++ t.name))
      (replaceByCopy v t (next + (others.length + 1)) p) op d xs t := by
    refine ⟨computes, computes.redirect nonzero ?_, ?_, command?_replaceByCopy computes _⟩
    · rw [View.command?_noted, command?_redirect]
      rfl
    · rintro rfl
      exact unwrittenHere (by simp [computes.defs.2])
  rw [hoist_split between]
  exact .mk scratch dead free unwritten hoists fun S s =>
    shared_of_numbered v next S s computes numbered unreadMid unwrittenMid

end Hoisting

/-- A step hoists a value that is computed at several positions, into a register that is free from
the first of them to the last. -/
theorem step_eq_some {block block' : BlockCode} (stepped : step v block = some block') :
    ∃ first others t, ∃ several : others ≠ [], first :: others ∈ occurrences v block.code ∧
      scratch? v block.code first (others.getLast several) = some t ∧
      block' = ⟨hoist v block.nextId t (first :: others) block.code,
        block.nextId + (first :: others).length + 1⟩ := by
  unfold step at stepped
  obtain ⟨positions, member, shares⟩ := List.exists_of_findSome?_eq_some stepped
  unfold share? at shares
  split at shares
  · next first second more =>
    obtain ⟨t, found, rfl⟩ := Option.map_eq_some_iff.1 shares
    exact ⟨first, second :: more, t, List.cons_ne_nil second more, member, found, rfl⟩
  · contradiction

/-- A step of the pass shares a value. -/
theorem step_shares {block block' : BlockCode} (stepped : step v block = some block') :
    Shares v block.code block'.code := by
  obtain ⟨first, others, t, several, member, found, rfl⟩ := step_eq_some stepped
  obtain ⟨scratch, free, dead, unwritten⟩ := of_scratch? found
  obtain ⟨ordered, number, numbered⟩ := of_mem_occurrences member
  obtain ⟨below, between⟩ := le_last several ordered
  generalize isLast : others.getLast several = last at *
  have lastMember : last ∈ first :: others :=
    List.mem_cons_of_mem _ (isLast ▸ List.getLast_mem several)
  obtain ⟨q, isInside, -⟩ := numbered last lastMember
  have inside : last < block.code.length := (List.getElem?_eq_some_iff.1 isInside).1
  obtain ⟨p, here, -⟩ := numbered first (List.mem_cons_self ..)
  obtain ⟨code, next⟩ := block
  obtain ⟨front, mid, after, rfl, rfl, rfl⟩ := split_at here below inside
  have window : ((front ++ (p :: mid) ++ after).drop front.length).take
      (front.length + mid.length + 1 - front.length) = p :: mid := by
    rw [List.append_assoc, List.drop_left, List.take_left']
    simp only [List.length_cons]
    omega
  rw [window] at unwritten
  rw [List.append_assoc, List.drop_left] at dead
  have isNumber : ∀ i ∈ front.length :: others, (Numbering.initial.followAll
      (front ++ (p :: mid) ++ after)).1[i]? = some (some number) := by
    intro i position
    obtain ⟨q, -, isNumber, -⟩ := numbered i position
    exact isNumber
  refine hoist_shares (fun i position => ⟨?_, ?_⟩) isNumber scratch free dead unwritten
  · exact (List.pairwise_cons.1 ordered).1 i position
  · exact (between i (List.mem_cons_of_mem _ position)).2

/-- The whole pass cannot be seen behind the block. -/
theorem run_unseen (S : Semantics V M) (v : View) (block : BlockCode) :
    Unseen S v block.code (run v block).code :=
  exhaust_induction (fun a b => Unseen S v a.code b.code) (fun a => .refl a.code)
    (fun stepped later => ((step_shares stepped).unseen S).trans later) block.code.length block

/-- Common subexpression elimination is invisible. Take any graph, any block of it and fresh facts,
any meaning of the commands that keeps to the table of operand roles, and any state at the entry of
the block. After the pass on the block, its code leads to the same memory, to the same decision at
its end, and to the same value in every register that is live behind it, and in every reserved
one. -/
theorem common_subexpressions_invisible (S : Semantics V M) (o : Options) (g : Graph) (next : Nat)
    (tally : Tally) (b : Block) (here : g.block? b.id = some b) (s : MachineState V M) :
    let w := Workspace.create o g next tally
    ∃ code, (Pass.sharing.apply o w b).1.graph.block? b.id = some { b with code } ∧
      (S.execAll code s).mem = (S.execAll b.code s).mem ∧
      S.leave b.id code s = S.leave b.id b.code s ∧
      ∀ r, r ∈ w.facts.liveOut b ∨ r ∈ o.reserved →
        (S.execAll code s).read S.zero r = (S.execAll b.code s).read S.zero r := by
  intro w
  let v := w.facts.view o.annotated b
  have unseen := run_unseen S v ⟨b.code, w.nextId⟩
  refine ⟨(run v ⟨b.code, w.nextId⟩).code, Graph.block?_setCode_self here, (unseen.mem s).symm,
    (unseen.leaves b.id s).symm, fun r seen => ?_⟩
  have same := unseen.regs s r (seen.imp_right FactSet.mem_ofList.2)
  rw [MachineState.read, MachineState.read, same]

/-- Two values that are computed twice each, in overlapping stretches of a block. The second time,
their operands are the other way round, one of them comes through a copy, and one is overwritten. -/
theorem common_subexpressions_invisible_twice :
    let general (n : Fin 32) := Operand.reg (.general n)
    let code : List Instr := [.ofCommand 1 (.ofOpcode .addu [general 16, general 4, general 5]),
      .ofCommand 2 (.copy (.general 8) (.general 4)),
      .ofCommand 3 (.ofOpcode .xor [general 18, general 6, general 7]),
      .ofCommand 4 (.ofOpcode .addu [general 17, general 5, general 8]),
      .ofCommand 5 (.ofOpcode .xor [general 6, general 7, general 6]),
      .ofCommand 6 (.ofOpcode .jr [.reg Reg.link])]
    let b : Block := { id := 0, code }
    let S := Machine.semantics fun _ => none
    let s : Machine.State :=
      ⟨fun r => if r = .general 4 then 2 else if r = .general 5 then 3 else 7, fun _ => 0⟩
    ∃ code', (Pass.sharing.apply {} (.create {} ⟨[b]⟩ 7 {}) b).1.graph.block? 0 =
        some { b with code := code' } ∧
      code'.map Instr.id = [7, 9, 2, 10, 12, 8, 11, 6] ∧
      (S.execAll code' s).read 0 (.general 17) = 5 := by
  intro general code b S s
  let w := Workspace.create {} ⟨[b]⟩ 7 {}
  obtain ⟨code', isBlock, -, -, regs⟩ := common_subexpressions_invisible S {} ⟨[b]⟩ 7 {} b rfl s
  -- the kernel does not unfold sorting; the equations that rewrite a lookup come with computability
  have changed : ((Pass.sharing.apply {} w b).1.graph.block? 0).map (·.code.map Instr.id) =
      some [7, 9, 2, 10, 12, 8, 11, 6] := by decide_cbv
  have live : (w.facts.liveOut b).contains (.general 17) = true := by decide +kernel
  have before : (S.execAll b.code s).read 0 (.general 17) = 5 := by decide +kernel
  refine ⟨code', isBlock, ?_, (regs _ (Or.inl (FactSet.contains_iff.1 live))).trans before⟩
  rw [isBlock] at changed
  exact Option.some.inj changed

end Sharing

end MipsFlow
