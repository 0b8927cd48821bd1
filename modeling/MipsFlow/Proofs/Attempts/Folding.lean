import MipsFlow.Proofs.Attempts.Sharing
import MipsFlow.Proofs.Faults

/-!
# Evaluating with guards

Constant folding evaluates a command after it has counted the operands and asked for the kind of
the first one, and divides only after it has compared the divisor with zero. There is one look-up
without a guard: the operands of a product are asked for whether they are there or not. So the pass
breaks down just where it faults.
-/

namespace MipsFlow

/-- A quotient or a remainder is evaluated. -/
def Opcode.divides (op : Opcode) : Bool := [.div, .divu, .rem, .remu].contains op

/-- What a block with some code in front becomes, or the fault that ends it early. -/
def Folding.Outcome.behind (done : List Instr) (changed : Bool) (outcome : Folding.Outcome) :
    Except Fault (BlockCode × Bool) :=
  match outcome.fault with
  | some fault => .error fault
  | none => .ok (⟨done ++ outcome.block.code, outcome.block.nextId⟩, changed || outcome.changed)

namespace Attempt

variable {k : Known} {c : Command} {v : View} {f : Facts} {b : Block}

/-! ## Arithmetic -/

/-- A result that has been divided by a word. -/
def divide {α : Type} (result : α) (y : Word) : Attempt α :=
  if y = 0 then throw .divisionByZero else return result

theorem divide_eq {α : Type} {y : Word} (nonzero : y ≠ 0) (result : α) :
    divide result y = pure result := if_neg nonzero

/-- The result of an operation on two words. -/
def binary? (op : Opcode) (x y : Word) : Attempt (Option Word) := do
  if y = 0 ∧ op.divides then return none
  else
    match op with
    | .div => if Word.divisionOverflows x y then return none else return ← divide (x.sdiv y) y
    | .rem => if Word.divisionOverflows x y then return none else return ← divide (x.srem y) y
    | .divu => return ← divide (x / y) y
    | .remu => return ← divide (x % y) y
    | op => return Word.binary? op x y

theorem binary?_eq (op : Opcode) (x y : Word) : binary? op x y = pure (Word.binary? op x y) := by
  unfold binary?
  by_cases zero : y = 0
  · cases op <;> simp [Opcode.divides, zero, Word.binary?]
  · rw [if_neg fun both => zero both.1]
    have nonzero : ¬ y = 0#32 := zero
    cases op <;> simp [divide_eq zero, Word.binary?, nonzero, apply_ite (pure (f := Attempt))]

/-- What an operation leaves in the multiplier's high and low register. -/
def multiplier? (op : Opcode) (x y : Word) : Attempt (Option (Word × Word)) := do
  match op with
  | .div =>
    if y = 0 ∨ Word.divisionOverflows x y then return none
    else return (← divide (x.srem y) y, ← divide (x.sdiv y) y)
  | .divu => if y = 0 then return none else return (← divide (x % y) y, ← divide (x / y) y)
  | op => return Word.multiplier? op x y

theorem multiplier?_eq (op : Opcode) (x y : Word) :
    multiplier? op x y = pure (Word.multiplier? op x y) := by
  unfold multiplier?
  by_cases zero : y = 0
  · cases op <;> simp [zero, Word.multiplier?]
  · have nonzero : ¬ y = 0#32 := zero
    cases op <;>
      simp [divide_eq zero, Word.multiplier?, nonzero, apply_ite (pure (f := Attempt))]

/-! ## Evaluating commands -/

/-- The value of a command that writes one operand and has one other. -/
def valueOfOne (k : Known) (op : Opcode) (o : Operand) : Option Word :=
  match op, o with
  | .li, o => k.operand? o
  | .lui, .imm value => some (Word.ofImm value <<< 16)
  | .move, .reg src => k.reg? src
  | .lw, .mem offset base => k.cell? offset base
  | op, o => (k.operand? o).bind (Word.unary? op)

/-- The value of a command that writes one operand and has two others. -/
def valueOfTwo (k : Known) (op : Opcode) (x y : Operand) : Attempt (Option Word) :=
  match k.operand? x, k.operand? y with
  | some x, some y => binary? op x y
  | _, _ => return none

/-- The value that a command writes to its first operand, if that can be told. -/
def result? (k : Known) (c : Command) : Attempt (Option Word) := do
  if c.args.isEmpty || (← isForeign c) then return none
  else
    match c.op?, ← operand c 0 with
    | some op, .reg _ =>
      if c.args.length = 1 then
        return if op = .mflo then k.reg? .lo else if op = .mfhi then k.reg? .hi else none
      else if c.args.length = 2 then return valueOfOne k op (← operand c 1)
      else if c.args.length = 3 && !(← isMultiplierDivision c) then
        valueOfTwo k op (← operand c 1) (← operand c 2)
      else return none
    | _, _ => return none

theorem valueOfTwo_eq (k : Known) (op : Opcode) (x y : Operand) : valueOfTwo k op x y =
    pure ((k.operand? x).bind fun x => (k.operand? y).bind (Word.binary? op x)) := by
  unfold valueOfTwo
  cases k.operand? x <;> cases k.operand? y <;> first | rfl | exact binary?_eq ..

@[simp] theorem result?_eq (k : Known) (c : Command) : result? k c = pure (k.result? c) := by
  unfold result? Known.result?
  simp only [isForeign_eq, isMultiplierDivision_eq, valueOfTwo_eq, pure_bind]
  cases c.isForeign with
  | true => simp
  | false =>
    match args : c.args with
    | [] | .imm _ :: _ | .sym _ :: _ | .mem _ _ :: _ => cases c.op? <;> simp [operand, args]
    | .reg d :: _ :: _ :: _ :: _ => cases c.op? <;> simp [operand, args]
    | [.reg d] =>
      cases c.op? with
      | none => simp [operand, args]
      | some op =>
        simp only [operand, args, index_first, pure_bind, List.isEmpty_cons, Bool.or_self,
          Bool.false_eq_true, if_false, List.length_singleton, if_true]
        cases op <;> rfl
    | [.reg d, o] =>
      cases c.op? with
      | none => simp [operand, args]
      | some op =>
        simp only [operand, args, index_first, index_second, pure_bind, List.isEmpty_cons,
          Bool.or_self, Bool.false_eq_true, if_false, List.length_cons, List.length_nil, if_true]
        cases op <;> cases o <;> rfl
    | [.reg d, x, y] =>
      have third : index [Operand.reg d, x, y] 2 = pure y := index_eq rfl
      cases c.op? with
      | none => simp [operand, args]
      | some op => cases c.isMultiplierDivision <;> simp [operand, args, third]

/-- What goes to the multiplier, which has two operands unless it is a product. -/
def multiplierOperands (c : Command) : Attempt (Option (List Operand)) := do
  if c.op? = some .mult ∨ c.op? = some .multu then return some c.args
  else if ← isMultiplierDivision c then
    return some (← slice c.args (c.args.length - 2) c.args.length)
  else return none

theorem multiplierOperands_eq (c : Command) :
    multiplierOperands c = pure (Known.multiplierOperands c) := by
  unfold multiplierOperands Known.multiplierOperands
  rw [isMultiplierDivision_eq, pure_bind, slice_eq (Nat.sub_le _ _) (Nat.le_refl _), pure_bind,
    List.take_length]
  simp only [Bool.or_eq_true, decide_eq_true_eq]
  split
  · rfl
  · exact (apply_ite pure _ _ _).symm

/-- What a command leaves in the multiplier's two registers, if that can be told. The operands of
a product may not be there. -/
def multiplierResult (k : Known) (c : Command) : Attempt (Option (Word × Word)) := do
  match c.op?, ← multiplierOperands c with
  | some op, some args =>
    match k.operand? (← index args 0) with
    | none => return none
    | some x =>
      match k.operand? (← index args 1) with
      | none => return none
      | some y => multiplier? op x y
  | _, _ => return none

theorem multiplierResult_eq (k : Known) (c : Command) :
    multiplierResult k c = call (k.multiplierResult c) := by
  unfold multiplierResult Known.multiplierResult
  rw [multiplierOperands_eq, pure_bind]
  match c.op?, Known.multiplierOperands c with
  | none, _ | some _, none => rfl
  | some _, some [] =>
    have missing : index ([] : List Operand) 0 = throw (.fault (.outOfBounds 0 0)) := rfl
    simp only [missing, throw_bind, call_error]
  | some op, some [x] =>
    have missing : index [x] 1 = throw (.fault (.outOfBounds 1 1)) := rfl
    simp only [index_first, missing, pure_bind, throw_bind]
    cases k.operand? x <;> rfl
  | some op, some (x :: y :: more) =>
    simp only [index_first, index_second, pure_bind, multiplier?_eq]
    cases k.operand? x with
    | none => rfl
    | some x =>
      show _ = (pure ((k.operand? y).bind (Word.multiplier? op x)) : Attempt _)
      cases k.operand? y <;> rfl

/-- What is known about memory after a command. -/
def afterStore (k : Known) (c : Command) : Attempt Known := do
  if (← isForeign c) || c.leavesCode then return k.forgetMemory
  else if !c.isStore then return k
  else if c.op? = some .sw ∧ c.args.length = 2 then
    let o ← operand c 0
    match ← operand c 1 with
    | .mem offset base =>
      return { k with cells := ((k.operand? o).map (Cell.mk offset base)).toList }
    | _ => return k.forgetMemory
  else return k.forgetMemory

theorem afterStore_eq (k : Known) (c : Command) : afterStore k c = pure (k.afterStore c) := by
  unfold afterStore Known.afterStore
  rw [isForeign_eq, pure_bind]
  cases c.isForeign || c.leavesCode with
  | true => rfl
  | false =>
    cases c.isStore with
    | false => rfl
    | true =>
      simp only [Bool.not_true, Bool.false_eq_true, if_false, if_true]
      by_cases isOp : c.op? = some .sw
      · match args : c.args with
        | [] | [_] | _ :: _ :: _ :: _ => simp [isOp]
        | [o, place] =>
          simp only [isOp, operand, args, index_first, index_second, List.length_cons,
            List.length_nil, and_self, if_true, pure_bind]
          cases place <;> rfl
      · rw [if_neg fun both => isOp both.1]
        split
        · next isOp' _ => exact absurd isOp' isOp
        · rfl

/-- What is known after a command. -/
def after (k : Known) (c : Command) : Attempt Known := do
  let value? ← result? k c
  let pair? ← multiplierResult k c
  let k ← afterStore k c
  let k := k.forget (← clobbers c)
  let k ← match value? with
    | some value =>
      match ← operand c 0 with
      | .reg dst => pure (k.setReg dst value)
      | _ => pure k
    | none => pure k
  return match pair? with
    | some (hi, lo) => (k.setReg .hi hi).setReg .lo lo
    | none => k

theorem after_eq (k : Known) (c : Command) : after k c = call (k.after c) := by
  unfold after Known.after
  rw [result?_eq, pure_bind, multiplierResult_eq]
  cases k.multiplierResult c with
  | error fault => exact throw_bind ..
  | ok pair? =>
    simp only [call_ok, afterStore_eq, clobbers_eq, pure_bind]
    cases found : k.result? c with
    | none => rfl
    | some value =>
      obtain ⟨d, rest, args, -⟩ := Known.step_of_result? found
      simp only [operand, args, index_first, pure_bind]
      rfl

/-! ## Reducing operands -/

/-- The last two operands, if the last one is a register and one of them is put in as a literal. -/
def literal? (k : Known) (op : Opcode) (x : Reg) (last : Operand) : Option (Reg × Operand) :=
  match last with
  | .reg y => Folding.literalOperands? k op x y
  | _ => none

/-- Reduces the operands of a computation. -/
def reduce (k : Known) (c : Command) : Attempt Folding.Reduction := do
  if c.args.length ≠ 3 then return ⟨none, none⟩
  else
    let dst ← operand c 0
    let x ← operand c 1
    let last ← operand c 2
    match c.op?, dst, x with
    | some op, .reg dst, .reg x =>
      match literal? k op x last with
      | some (x, last) =>
        let args ← store c.args 1 (.reg x)
        let args ← store args 2 last
        return ⟨some { c with args }, if last = .imm 0 then Folding.simplified? dst x op else none⟩
      | none => return ⟨none, if last = .imm 0 then Folding.simplified? dst x op else none⟩
    | _, _, _ => return ⟨none, none⟩

theorem reduce_eq (k : Known) (c : Command) : reduce k c = pure (Folding.reduce k c) := by
  unfold reduce Folding.reduce
  match args : c.args with
  | [] | [_] | [_, _] | _ :: _ :: _ :: _ :: _ => cases c.op? <;> simp
  | [dst, x, last] =>
    have third : index [dst, x, last] 2 = pure last := index_eq rfl
    simp only [operand, args, List.length_cons, List.length_nil, ne_eq, not_true_eq_false,
      if_false, index_first, index_second, third, pure_bind]
    cases c.op? with
    | none => rfl
    | some op =>
      cases dst with
      | reg dst =>
        cases x with
        | reg x =>
          cases last with
          | reg y =>
            simp only [literal?]
            cases Folding.literalOperands? k op x y with
            | none => rfl
            | some operands =>
              have three : 1 < [Operand.reg dst, .reg x, .reg y].length := by simp
              have same :
                  2 < ([Operand.reg dst, .reg x, .reg y].set 1 (.reg operands.1)).length := by
                simp
              simp only [store_eq three, store_eq same, pure_bind]
              rfl
          | _ => rfl
        | _ => rfl
      | _ => rfl

/-- The command computes something into a register that is not reserved. -/
def isFoldable (v : View) (c : Command) : Attempt Bool := do
  if (c.isArith || (← copy? c).isSome || c.op? = some .mflo || c.op? = some .mfhi ||
      (← readsMemory c)) && !c.args.isEmpty then
    match ← operand c 0 with
    | .reg dst => return !v.reserved.contains dst
    | _ => return false
  else return false

theorem isFoldable_eq (v : View) (c : Command) :
    isFoldable v c = pure (Folding.isFoldable v c) := by
  unfold isFoldable Folding.isFoldable
  rw [copy?_eq, pure_bind, readsMemory_eq, pure_bind]
  generalize (c.isArith || c.copy?.isSome || decide (c.op? = some .mflo) ||
    decide (c.op? = some .mfhi) || c.readsMemory) = computes
  cases computes with
  | false => rfl
  | true =>
    match args : c.args with
    | [] => rfl
    | o :: _ =>
      simp only [operand, args, index_first, pure_bind]
      cases o <;> rfl

/-- Folds a command, or reduces its operands, or leaves it. -/
def fold (v : View) (k : Known) (next : Nat) (p : Instr) (c : Command) :
    Attempt Folding.Folded := do
  if !(← isFoldable v c) then return ⟨p, next, false⟩
  else
    match ← result? k c with
    | some value =>
      match ← operand c 0 with
      | .reg dst =>
        return ⟨v.succeed p (.ofCommand next (.loadImm dst value.toImm))
          ("constant folded: " ++ p.text ++ " = " ++ Text.decimal value.toInt), next + 1, true⟩
      | _ => return ⟨p, next, false⟩
    | none =>
      if !c.isArith then return ⟨p, next, false⟩
      else
        let note := "constant operand: " ++ p.text
        match ← reduce k c with
        | ⟨_, some simpler⟩ => return ⟨v.succeed p (.ofCommand next simpler) note, next + 1, true⟩
        | ⟨some changed, none⟩ => return ⟨v.noted (p.withCommand changed) note, next, true⟩
        | ⟨none, none⟩ => return ⟨p, next, false⟩

theorem fold_eq (v : View) (k : Known) (next : Nat) (p : Instr) (c : Command) :
    fold v k next p c = pure (Folding.fold v k next p c) := by
  unfold fold Folding.fold
  simp only [isFoldable_eq, result?_eq, reduce_eq, pure_bind]
  cases Folding.isFoldable v c with
  | false => rfl
  | true =>
    cases found : k.result? c with
    | some value =>
      obtain ⟨d, rest, args, -⟩ := Known.step_of_result? found
      simp only [operand, args, index_first, pure_bind]
      rfl
    | none =>
      cases c.isArith with
      | false => rfl
      | true =>
        obtain ⟨changed, simpler⟩ := Folding.reduce k c
        cases changed <;> cases simpler <;> rfl

/-! ## The pass -/

/-- Reads the next instruction and folds it. -/
def foldNext (v : View) : Cursor × Known × Nat × Bool →
    Attempt ((Cursor × Known × Nat × Bool) ⊕ (BlockCode × Bool)) :=
  fun (k, known, next, changed) => do
    if k.atEnd then return .inr (⟨k.code, next⟩, changed)
    else
      let (p, k) ← call k.read
      match p.command? with
      | none => return .inl (k, known, next, changed)
      | some c =>
        let folded ← fold v known next p c
        let k ← if folded.changed then exchangeRead k 1 [folded.instr] else pure k
        let known ← (folded.instr.command?.elim (pure known) (after known) : Attempt Known)
        return .inl (k, known, folded.nextId, changed || folded.changed)

/-- Folds the commands of a block in order. -/
def folding (annotated : Bool) (f : Facts) (b : Block) (x : BlockCode) :
    Attempt (BlockCode × Bool) :=
  loop (foldNext (f.view annotated b))
    (between annotated [] x.code false, { fixed := f.reserved }, x.nextId, false)

/-- Folding from a place on is folding what is there. -/
theorem foldNext_from (v : View) (annotated : Bool) (done rest : List Instr) (fresh : Bool)
    (known : Known) (next : Nat) (changed : Bool) :
    loop (foldNext v) (between annotated done rest fresh, known, next, changed) =
      call ((Folding.runFrom v known next rest).behind done changed) := by
  induction rest generalizing done fresh known next changed with
  | nil =>
    refine (loop_done (a := (⟨done, next⟩, changed)) ?_).trans ?_
    · simp only [foldNext, atEnd_between, if_true]
      simp only [between, List.append_nil]
    · simp [Folding.runFrom, Folding.Outcome.behind]
  | cons p rest ih =>
    obtain ⟨more, reads⟩ := read_between annotated done p rest fresh
    cases command : p.command? with
    | none =>
      have turned : foldNext v (between annotated done (p :: rest) fresh, known, next, changed) =
          pure (.inl (between annotated (done ++ [p]) rest true, known, next, changed)) := by
        simp only [foldNext, more, Bool.false_eq_true, if_false, reads, call_ok, pure_bind, command]
      rw [loop_next turned, ih, Folding.runFrom, command]
      simp [Folding.Outcome.behind]
    | some c =>
      have turned : foldNext v (between annotated done (p :: rest) fresh, known, next, changed) =
          (do
            let folded := Folding.fold v known next p c
            let known ← folded.instr.command?.elim (pure known) (after known)
            return .inl (between annotated (done ++ [folded.instr]) rest (!folded.changed), known,
              folded.nextId, changed || folded.changed)) := by
        simp only [foldNext, more, Bool.false_eq_true, if_false, reads, call_ok, pure_bind, command,
          fold_eq]
        rcases Folding.fold_exchange v known next p c with same | ⟨isChanged, -⟩
        · simp [same]
        · simp only [isChanged, if_true, exchangeRead_one, pure_bind, Bool.not_true]
      have evaluated (d? : Option Command) : d?.elim (pure known) (after known) =
          call (d?.elim (.ok known) known.after) := by
        cases d? with
        | none => rfl
        | some d => exact after_eq known d
      simp only [evaluated] at turned
      rw [Folding.runFrom, command]
      dsimp only
      cases isAfter :
          (Folding.fold v known next p c).instr.command?.elim (.ok known) known.after with
      | error fault =>
        rw [isAfter, call_error, throw_bind] at turned
        rw [loop_breaks turned]
        rfl
      | ok known' =>
        rw [isAfter, call_ok, pure_bind] at turned
        rw [loop_next turned, ih]
        simp [Folding.Outcome.behind, Bool.or_assoc]

/-- Folding goes wrong where it faults, and nowhere else. -/
theorem folding_eq (annotated : Bool) (f : Facts) (b : Block) (x : BlockCode) :
    folding annotated f b x = call ((Folding.run (f.view annotated b) x).behind [] false) :=
  foldNext_from (f.view annotated b) annotated [] x.code false _ x.nextId false

end Attempt

end MipsFlow
