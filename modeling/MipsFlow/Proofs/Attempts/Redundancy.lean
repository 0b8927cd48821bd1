import MipsFlow.Optimizer.Redundancy
import MipsFlow.Proofs.Attempts.Analyses
import MipsFlow.Proofs.Attempts.Cursors
import MipsFlow.Proofs.Peephole
import MipsFlow.Proofs.RedundancyPass
import MipsFlow.Proofs.Weights

/-!
# Rewriting with a cursor

Redundancy elimination reads a block with a cursor. A rule looks at the instruction just read and
peeks at those behind it; where one applies, a window that begins with the instruction just read is
exchanged, and the cursor goes back to the beginning. The window never reaches beyond the block,
because a rule only asks for instructions that it has seen.

What a cursor sees is what is behind it (`Cursor.behind`), and a rule comes to the same as the one
over the instructions behind the first.
-/

namespace MipsFlow

open Redundancy (Substitution)

namespace Attempt

variable {f : Facts} {b : Block} {k : Cursor} {next : Nat} {p q r : Instr} {c : Command}
variable {v : View} {rest : List Instr} {w : Substitution}

/-! ## Looking ahead -/

/-- The commands behind the cursor, if the next `count` instructions are there and are commands. -/
def following (k : Cursor) (count : Nat) : Attempt (Option (List (Instr × Command))) := do
  let ins ← peek k count
  if ins.length ≠ count then return none
  else return ins.mapM fun p => p.command?.map (p, ·)

theorem following_nil (inside : k.pos ≤ k.code.length) (behind : k.behind = []) (count : Nat) :
    following k (count + 1) = pure none := by
  rw [following, peek_eq inside, pure_bind, behind, List.take_nil, if_pos]
  exact Nat.ne_of_lt (Nat.succ_pos count)

theorem following_one (inside : k.pos ≤ k.code.length) (behind : k.behind = q :: rest) :
    following k 1 = pure (q.command?.map fun d => [(q, d)]) := by
  rw [following, peek_eq inside, pure_bind, behind, List.take_succ_cons, List.take_zero, if_neg]
  · cases command : q.command? <;> simp [command]
  · simp

theorem following_two (inside : k.pos ≤ k.code.length) (behind : k.behind = q :: r :: rest) :
    following k 2 =
      pure (q.command?.bind fun d => r.command?.map fun e => [(q, d), (r, e)]) := by
  rw [following, peek_eq inside, pure_bind, behind, List.take_succ_cons, List.take_succ_cons,
    List.take_zero, if_neg]
  · cases command : q.command? <;> cases command' : r.command? <;> simp [command, command']
  · simp

theorem following_two_of_single (inside : k.pos ≤ k.code.length) (behind : k.behind = [q]) :
    following k 2 = pure none := by
  rw [following, peek_eq inside, pure_bind, behind, if_pos]
  simp

/-! ## The rules -/

theorem isReg_eq (o : Operand) (a : Reg) : o.isReg a = decide (o = .reg a) := by
  cases o <;> simp [Operand.isReg, Operand.reg?]

/-- A copy of a register to itself goes. -/
def dropSelfCopy (next : Nat) (p : Instr) (c : Command) : Attempt (Option Substitution) := do
  match ← copy? c with
  | some (a, b) =>
    if a = b then return some ⟨1, [], "redundant move removed: " ++ p.text, next⟩ else return none
  | none => return none

theorem dropSelfCopy_eq (v : View) (next : Nat) (p : Instr) (c : Command) (rest : List Instr) :
    dropSelfCopy next p c = pure (Redundancy.dropSelfCopy v next p c rest) := by
  unfold dropSelfCopy Redundancy.dropSelfCopy
  rw [copy?_eq, pure_bind]
  cases c.copy? with
  | none => rfl
  | some pair => exact (apply_ite pure _ _ _).symm

/-- In `move a, b; op a, a, ...` the operation reads `b` directly. -/
def readThroughCopy (k : Cursor) (next : Nat) (p : Instr) (c : Command) :
    Attempt (Option Substitution) := do
  match ← copy? c with
  | none => return none
  | some (a, b) =>
    match ← following k 1 with
    | none => return none
    | some ins =>
      let (q, d) ← index ins 0
      if d.args.length < 2 then return none
      else
        let first ← operand d 0
        let second ← operand d 1
        if !(← isForeign d) && !d.isJump && first.isReg a && second.isReg a &&
            (← defs d).contains a && (← readSites d).filter (·.reg = a) = [⟨1, a⟩] then
          let args ← store d.args 1 (.reg b)
          return some ⟨2, [q.withCommand { d with args }], "move folded: " ++ p.text, next⟩
        else return none

theorem readThroughCopy_eq (v : View) (inside : k.pos ≤ k.code.length) (next : Nat) (p : Instr)
    (c : Command) : readThroughCopy k next p c =
      pure (Redundancy.readThroughCopy v next p c k.behind) := by
  unfold readThroughCopy Redundancy.readThroughCopy
  rw [copy?_eq, pure_bind]
  cases c.copy? with
  | none => rfl
  | some pair =>
    cases behind : k.behind with
    | nil => simp only [following_nil inside behind, pure_bind]
    | cons q rest =>
      simp only [following_one inside behind, pure_bind]
      cases q.command? with
      | none => rfl
      | some d =>
        simp only [Option.map_some, index_first, pure_bind]
        match args : d.args with
        | [] => simp
        | [x] => simp
        | x :: y :: zs =>
          have long : ¬ (x :: y :: zs).length < 2 := by simp
          simp only [operand, args, if_neg long, index_first, index_second, isForeign_eq, defs_eq,
            readSites_eq, store_eq (show 1 < (x :: y :: zs).length by simp), pure_bind, isReg_eq,
            List.getElem?_cons_zero, List.getElem?_cons_succ, Option.some.injEq]
          exact (apply_ite pure _ _ _).symm

/-- In `op t, ...; move a, t; call` the operation writes the argument register `a` directly. -/
def computeArgument (f : Facts) (b : Block) (k : Cursor) (next : Nat) (p : Instr) (c : Command) :
    Attempt (Option Substitution) := do
  if c.args.isEmpty then return none
  else
    match ← operand c 0 with
    | .reg t =>
      match ← following k 2 with
      | none => return none
      | some ins =>
        let (q, d) ← index ins 0
        let (_, call) ← index ins 1
        match ← copy? d with
        | none => return none
        | some (a, s) =>
          if (← isPure c) && (← defs c) = [t] && s = t && call.isCall && a.isArgument && a ≠ t &&
              !f.reserved.contains a &&
              (← deadFrom f { b with code := k.code } (k.pos + 1) t) then
            let args ← store c.args 0 (.reg a)
            return some ⟨2, [p.withCommand { c with args }], "argument forwarded: " ++ q.text, next⟩
          else return none
    | _ => return none

theorem computeArgument_eq (known : b.id < f.live.exit.length) (annotated : Bool)
    (inside : k.pos ≤ k.code.length) (next : Nat) (p : Instr) (c : Command) :
    computeArgument f b k next p c =
      pure (Redundancy.computeArgument (f.view annotated b) next p c k.behind) := by
  unfold computeArgument Redundancy.computeArgument
  match args : c.args with
  | [] => rfl
  | .imm _ :: others | .sym _ :: others | .mem _ _ :: others =>
    simp [operand, args]
  | .reg t :: others =>
    simp only [operand, args, List.isEmpty_cons, Bool.false_eq_true, if_false, index_first,
      pure_bind]
    cases behind : k.behind with
    | nil => simp only [following_nil inside behind, pure_bind]
    | cons q later =>
      cases later with
      | nil => simp only [following_two_of_single inside behind, pure_bind]
      | cons r rest =>
        have dead : deadFrom f { b with code := k.code } (k.pos + 1) t =
            pure ((f.view annotated b).dead (r :: rest) t) := by
          rw [deadFrom_eq (b := { b with code := k.code }) known annotated, Cursor.drop_succ,
            behind]
          rfl
        simp only [following_two inside behind, pure_bind, Instr.copy?]
        cases q.command? with
        | none => rfl
        | some d =>
          cases r.command? with
          | none =>
            simp only [Option.bind_some, Option.map_none]
            cases d.copy? <;> rfl
          | some call =>
            simp only [Option.bind_some, Option.map_some, index_first, index_second, copy?_eq,
              pure_bind]
            cases d.copy? with
            | none => rfl
            | some pair =>
              simp only [isPure_eq, defs_eq, dead,
                store_eq (show 0 < (Operand.reg t :: others).length by simp), pure_bind]
              exact (apply_ite pure _ _ _).symm

/-- In `move a, b; move b, a` the second copy goes. -/
def dropCopyBack (k : Cursor) (next : Nat) (p : Instr) (c : Command) :
    Attempt (Option Substitution) := do
  match ← copy? c with
  | none => return none
  | some (a, b) =>
    match ← following k 1 with
    | none => return none
    | some ins =>
      let (q, d) ← index ins 0
      if (← copy? d) = some (b, a) then
        return some ⟨2, [p], "redundant move removed: " ++ q.text, next⟩
      else return none

theorem dropCopyBack_eq (v : View) (inside : k.pos ≤ k.code.length) (next : Nat) (p : Instr)
    (c : Command) : dropCopyBack k next p c =
      pure (Redundancy.dropCopyBack v next p c k.behind) := by
  unfold dropCopyBack Redundancy.dropCopyBack
  rw [copy?_eq, pure_bind]
  cases c.copy? with
  | none => rfl
  | some pair =>
    cases behind : k.behind with
    | nil => simp only [following_nil inside behind, pure_bind]
    | cons q rest =>
      simp only [following_one inside behind, pure_bind]
      cases command : q.command? with
      | none =>
        have isCopy : q.copy? = none := by rw [Instr.copy?, command, Option.bind_none]
        simp [isCopy]
      | some d =>
        have isCopy : q.copy? = d.copy? := by rw [Instr.copy?, command, Option.bind_some]
        simp only [Option.map_some, index_first, copy?_eq, pure_bind, isCopy]
        exact (apply_ite pure _ _ _).symm

/-- A load right behind a store of the same register to the same place goes. -/
def dropReload (k : Cursor) (next : Nat) (p : Instr) (c : Command) :
    Attempt (Option Substitution) := do
  match c.op?.bind Redundancy.matchingLoad? with
  | none => return none
  | some load =>
    if c.args.length ≠ 2 then return none
    else
      let value ← operand c 0
      match ← operand c 1 with
      | .mem offset base =>
        match ← following k 1 with
        | none => return none
        | some ins =>
          let (q, d) ← index ins 0
          if d.args.length ≠ 2 then return none
          else if d.op? = some load ∧ (← operand d 0) = value ∧
              (← operand d 1) = .mem offset base then
            return some ⟨2, [p], "redundant load removed: " ++ q.text, next⟩
          else return none
      | _ => return none

theorem dropReload_eq (v : View) (inside : k.pos ≤ k.code.length) (next : Nat) (p : Instr)
    (c : Command) : dropReload k next p c =
      pure (Redundancy.dropReload v next p c k.behind) := by
  unfold dropReload Redundancy.dropReload
  cases c.op?.bind Redundancy.matchingLoad? with
  | none => rfl
  | some load =>
    match args : c.args with
    | [] | [_] | _ :: _ :: _ :: _ => simp
    | [_, .reg _] | [_, .imm _] | [_, .sym _] => simp [operand, args]
    | [value, .mem offset base] =>
      simp only [operand, args, List.length_cons, List.length_nil, ne_eq, not_true_eq_false,
        if_false, index_first, index_second, pure_bind]
      cases behind : k.behind with
      | nil => simp only [following_nil inside behind, pure_bind]
      | cons q rest =>
        simp only [following_one inside behind, pure_bind]
        cases q.command? with
        | none => rfl
        | some d =>
          simp only [Option.map_some, index_first, pure_bind]
          match args' : d.args with
          | [] | [_] | _ :: _ :: _ :: _ => simp
          | [x, y] =>
            simp only [List.length_cons, List.length_nil, index_first, index_second, pure_bind,
              Bool.and_eq_true, decide_eq_true_eq, List.cons.injEq, and_true]
            exact (apply_ite pure _ _ _).symm

/-- A shift by zero goes if it is into the same register, and is a copy otherwise. -/
def simplifyShift (next : Nat) (p : Instr) (c : Command) : Attempt (Option Substitution) := do
  if !c.isShift then return none
  else if c.args.length ≠ 3 then return none
  else
    match ← operand c 0, ← operand c 1, ← operand c 2 with
    | .reg a, .reg b, .imm n =>
      if n ≠ 0 || a.isZero then return none
      else if a = b then return some ⟨1, [], "shift by zero removed: " ++ p.text, next⟩
      else return some ⟨1, [.ofCommand next (.copy a b)], "shift by zero: " ++ p.text, next + 1⟩
    | _, _, _ => return none

theorem simplifyShift_eq (v : View) (next : Nat) (p : Instr) (c : Command) (rest : List Instr) :
    simplifyShift next p c = pure (Redundancy.simplifyShift v next p c rest) := by
  unfold simplifyShift Redundancy.simplifyShift
  cases c.isShift with
  | false => rfl
  | true =>
    match args : c.args with
    | [] | [_] | [_, _] | _ :: _ :: _ :: _ :: _ => simp
    | [x, y, z] =>
      have third : index [x, y, z] 2 = pure z := index_eq rfl
      simp only [operand, args, List.length_cons, List.length_nil, ne_eq, not_true_eq_false,
        if_false, Bool.not_true, Bool.false_eq_true, index_first, index_second, third, pure_bind]
      cases x <;> cases y <;> cases z <;> try rfl
      case reg.reg.imm a b n =>
        dsimp only
        split_ifs <;> rfl

/-- In `addiu a, a, n; load d, m(a)` the increment moves into the offset. -/
def foldOffset (f : Facts) (b : Block) (k : Cursor) (next : Nat) (p : Instr) (c : Command) :
    Attempt (Option Substitution) := do
  if c.args.length ≠ 3 then return none
  else
    match ← operand c 0, ← operand c 1, ← operand c 2 with
    | .reg a, .reg s, .imm n =>
      match ← following k 1 with
      | none => return none
      | some ins =>
        let (q, d) ← index ins 0
        if !(← readsMemory d) then return none
        else
          let dst ← operand d 0
          match ← operand d 1 with
          | .mem (.number m) base =>
            if (c.op? = some .addu || c.op? = some .addiu) && a = s && base = a &&
                fitsSigned16 (m + n).toInt &&
                (dst.isReg a || (← deadFrom f { b with code := k.code } (k.pos + 1) a)) then
              let args ← store d.args 1 (.mem (.number (m + n)) a)
              return some ⟨2, [q.withCommand { d with args }], "offset folded: " ++ p.text, next⟩
            else return none
          | _ => return none
    | _, _, _ => return none

theorem foldOffset_eq (known : b.id < f.live.exit.length) (annotated : Bool)
    (inside : k.pos ≤ k.code.length) (next : Nat) (p : Instr) (c : Command) :
    foldOffset f b k next p c =
      pure (Redundancy.foldOffset (f.view annotated b) next p c k.behind) := by
  unfold foldOffset Redundancy.foldOffset
  match args : c.args with
  | [] | [_] | [_, _] | _ :: _ :: _ :: _ :: _ => simp
  | [x, y, z] =>
    have third : index [x, y, z] 2 = pure z := index_eq rfl
    simp only [operand, args, List.length_cons, List.length_nil, ne_eq, not_true_eq_false,
      if_false, index_first, index_second, third, pure_bind]
    cases x <;> cases y <;> cases z <;> try rfl
    case reg.reg.imm a s n =>
      cases behind : k.behind with
      | nil => simp only [following_nil inside behind, pure_bind]
      | cons q rest =>
        have dead : deadFrom f { b with code := k.code } (k.pos + 1) a =
            pure ((f.view annotated b).dead rest a) := by
          rw [deadFrom_eq (b := { b with code := k.code }) known annotated, Cursor.drop_succ,
            behind]
          rfl
        simp only [following_one inside behind, pure_bind]
        cases q.command? with
        | none => rfl
        | some d =>
          simp only [Option.map_some, index_first, pure_bind, readsMemory_eq]
          cases reads : d.readsMemory with
          | false =>
            simp only [Bool.not_false, if_true, Bool.and_false, Bool.false_and, Bool.false_eq_true,
              if_false]
            split <;> rfl
          | true =>
            -- what reads memory has two operands, of which the second is a memory place
            obtain ⟨dst, offset, base, args'⟩ :
                ∃ dst offset base, d.args = [dst, .mem offset base] := by
              have shape := (Bool.and_eq_true_iff.1 reads).2
              split at shape
              · next dst offset base isArgs => exact ⟨dst, offset, base, isArgs⟩
              · contradiction
            simp only [args', index_first, index_second, pure_bind, Bool.not_true,
              Bool.false_eq_true, if_false]
            cases offset with
            | symbol text => rfl
            | number m =>
              simp only [dead, pure_bind, Bool.and_true,
                store_eq (show 1 < [dst, Operand.mem (.number m) base].length by simp)]
              exact (apply_ite pure _ _ _).symm

/-! ## The pass -/

/-- The first rule that applies to the instruction just read. -/
def firstRule : List (Attempt (Option Substitution)) → Attempt (Option Substitution)
  | [] => return none
  | rule :: rules => do
    match ← rule with
    | some w => return some w
    | none => firstRule rules

/-- The substitution for the instruction just read. -/
def substitution? (f : Facts) (b : Block) (k : Cursor) (next : Nat) (p : Instr) :
    Attempt (Option Substitution) :=
  match p.command? with
  | none => return none
  | some c => firstRule
    [dropSelfCopy next p c, readThroughCopy k next p c, computeArgument f b k next p c,
      dropCopyBack k next p c, dropReload k next p c, simplifyShift next p c,
      foldOffset f b k next p c]

theorem firstRule_eq {f : Redundancy.Rule → Option Substitution} (rules : List Redundancy.Rule) :
    firstRule (rules.map fun rule => pure (f rule)) = pure (rules.findSome? f) := by
  induction rules with
  | nil => rfl
  | cons rule rules ih =>
    rw [List.map_cons, firstRule, pure_bind, List.findSome?_cons]
    cases f rule with
    | none => exact ih
    | some w => rfl

theorem substitution?_eq (known : b.id < f.live.exit.length) (annotated : Bool)
    (inside : k.pos ≤ k.code.length) (next : Nat) (p : Instr) :
    substitution? f b k next p =
      pure (Redundancy.substitutionHere? (f.view annotated b) next (p :: k.behind)) := by
  show _ = pure (p.command?.bind fun c =>
    Redundancy.rules.findSome? fun rule => rule (f.view annotated b) next p c k.behind)
  unfold substitution?
  cases p.command? with
  | none => rfl
  | some c =>
    have all := firstRule_eq
      (f := fun rule => rule (f.view annotated b) next p c k.behind) Redundancy.rules
    simp only [Redundancy.rules, List.map_cons, List.map_nil] at all
    simp only [dropSelfCopy_eq (f.view annotated b) next p c k.behind,
      readThroughCopy_eq (f.view annotated b) inside, computeArgument_eq known annotated inside,
      dropCopyBack_eq (f.view annotated b) inside, dropReload_eq (f.view annotated b) inside,
      simplifyShift_eq (f.view annotated b) next p c k.behind, foldOffset_eq known annotated inside]
    exact all

/-- Reads the next instruction, and applies the first rule that applies to it. -/
def rewriteNext (f : Facts) (b : Block) :
    Cursor × Nat × Bool → Attempt ((Cursor × Nat × Bool) ⊕ (BlockCode × Bool)) :=
  fun (k, next, changed) => do
    if k.atEnd then return .inr (⟨k.code, next⟩, changed)
    else
      let (p, k) ← call k.read
      match ← substitution? f b k next p with
      | none => return .inl (k, next, changed)
      | some w =>
        let k ← call (k.replace w.count w.repl w.note)
        return .inl (k.reset, w.nextId, true)

/-- A cursor before the instruction at a place of a block. -/
def before (annotated : Bool) (x : BlockCode) (pos : Nat) (fresh : Bool) : Cursor :=
  { code := x.code, annotated, room := x.code.length, pos, fresh }

/-- Eliminates redundancies in a block. -/
def redundancy (annotated : Bool) (f : Facts) (b : Block) (x : BlockCode) :
    Attempt (BlockCode × Bool) :=
  loop (rewriteNext f b) (before annotated x 0 false, x.nextId, false)

/-- A window that begins with the instruction just read, and is not longer than what is there, is
exchanged. -/
theorem replace_ok {count : Nat} (fresh : k.fresh = true)
    (inside : k.pos - 1 + count ≤ k.code.length) (repl : List Instr) (note : String) :
    ∃ k', k.replace count repl note = .ok k' ∧ k'.annotated = k.annotated ∧
      k'.code = Edit.splice k.annotated k.code (k.pos - 1) count repl note ∧
      k'.room = k'.code.length ∧ k'.pos = k.pos - 1 + repl.length ∧ k'.fresh = false := by
  let code := Edit.splice k.annotated k.code (k.pos - 1) count repl note
  refine ⟨{ k with code, room := code.length, pos := k.pos - 1 + repl.length, fresh := false }, ?_,
    rfl, rfl, rfl, rfl, rfl⟩
  rw [Cursor.replace, if_pos fresh, Cursor.replaceAt, if_neg (by omega)]
  rfl

/-- A rule only asks for instructions that it has seen. -/
theorem count_le_of_substitutionHere
    (found : Redundancy.substitutionHere? v next (p :: rest) = some w) :
    w.count ≤ (p :: rest).length := by
  obtain ⟨c, -, applies⟩ := Option.bind_eq_some_iff.1 found
  obtain ⟨rule, member, isRule⟩ := List.exists_of_findSome?_eq_some applies
  exact Redundancy.count_le_length member isRule

/-- Where no rule applies the cursor reads on; where one applies it starts again. -/
theorem rewriteNext_scan (known : b.id < f.live.exit.length) (x : BlockCode)
    (annotated changed : Bool) {i : Nat} (inside : i ≤ x.code.length) (fresh : Bool) :
    loop (rewriteNext f b) (before annotated x i fresh, x.nextId, changed) =
      match Redundancy.firstSubstitution? (f.view annotated b) x.nextId (x.code.drop i) with
      | none => pure (x, changed)
      | some (j, w) => loop (rewriteNext f b) (before annotated
          ⟨Edit.splice annotated x.code (i + j) w.count w.repl w.note, w.nextId⟩ 0 false,
          w.nextId, true) := by
  induction left : x.code.length - i generalizing i fresh with
  | zero =>
    obtain rfl : i = x.code.length := by omega
    rw [List.drop_length, Redundancy.firstSubstitution?]
    refine loop_done ?_
    simp only [rewriteNext, Cursor.atEnd, before, Nat.le_refl, decide_true, if_true]
  | succ n ih =>
    have here : i < x.code.length := by omega
    let k := before annotated x (i + 1) true
    have behind : x.code.drop i = x.code[i] :: k.behind := List.drop_eq_getElem_cons here
    have more : (before annotated x i fresh).atEnd = false := decide_eq_false (Nat.not_le.2 here)
    have reads : (before annotated x i fresh).read = .ok (x.code[i], k) := by
      simp only [Cursor.read, before, List.getElem?_eq_getElem here, k]
    have found := substitution?_eq (k := k) known annotated here x.nextId x.code[i]
    rw [behind, Redundancy.firstSubstitution?]
    cases applies : Redundancy.substitutionHere? (f.view annotated b) x.nextId
        (x.code[i] :: k.behind) with
    | none =>
      have next : rewriteNext f b (before annotated x i fresh, x.nextId, changed) =
          pure (.inl (k, x.nextId, changed)) := by
        simp only [rewriteNext, more, Bool.false_eq_true, if_false, reads, call_ok, pure_bind,
          found, applies]
      have isBehind : k.behind = x.code.drop (i + 1) := rfl
      rw [loop_next next, ih here true (by omega), isBehind]
      cases Redundancy.firstSubstitution? (f.view annotated b) x.nextId (x.code.drop (i + 1)) with
      | none => rfl
      | some place =>
        obtain ⟨j, w⟩ := place
        have place : i + 1 + j = i + (j + 1) := by omega
        simp only [Option.map_some, place]
    | some w =>
      have count := count_le_of_substitutionHere applies
      rw [← behind, List.length_drop] at count
      obtain ⟨k', replaced, annotated', code, room, -, -⟩ := replace_ok (k := k) rfl
        (show i + 1 - 1 + w.count ≤ x.code.length by omega) w.repl w.note
      have again : k'.reset = before annotated
          ⟨Edit.splice annotated x.code i w.count w.repl w.note, w.nextId⟩ 0 false := by
        rw [Cursor.reset, before, annotated', room, code]
        rfl
      refine loop_next ?_
      simp only [rewriteNext, more, Bool.false_eq_true, if_false, reads, call_ok, pure_bind, found,
        applies, replaced, again, Nat.add_zero]

/-- Nothing goes wrong when redundancies are eliminated. -/
theorem redundancy_eq (known : b.id < f.live.exit.length) (annotated : Bool) (x : BlockCode) :
    redundancy annotated f b x = pure (Redundancy.run (f.view annotated b) x,
      (Redundancy.step (f.view annotated b) x).isSome) := by
  have scanned (x : BlockCode) (changed : Bool) :=
    rewriteNext_scan known x annotated changed (Nat.zero_le x.code.length) false
  simp only [List.drop_zero, Nat.zero_add] at scanned
  refine loop_exhaust (Redundancy.step (f.view annotated b))
    (fun x changed => (before annotated x 0 false, x.nextId, changed))
    (fun x changed => (x, changed)) (fun x changed idle => ?_) (fun x y changed stepped => ?_)
    (Redundancy.step_run (f.view annotated b) x)
  · have none : Redundancy.firstSubstitution? (f.view annotated b) x.nextId x.code = none :=
      Option.map_eq_none_iff.1 idle
    rw [scanned, none]
  · obtain ⟨⟨i, w⟩, found, rfl⟩ := Option.map_eq_some_iff.1 stepped
    rw [scanned, found]
    rfl

end Attempt

end MipsFlow
