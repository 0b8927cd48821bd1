import Mathlib.Computability.Primrec.List
import Mathlib.Computability.TuringMachine.StackTuringMachine
import MipsFlow.Proofs.Lines
import MipsFlow.Proofs.Numbering
import MipsFlow.Proofs.Numerals

/-!
# Equal numbers mean equal values

A value is recognised by its *identifier*, a text made of other numbers: `$5`, `&sym`, or
`(addu %1 %2)`. No two values share one (`ValueKey.text_injective`), so a table of identifiers finds
what a table of values finds (`Numbering.lookup_texts`).

At every point of a run of straight-line code, registers with the same number hold the same value,
and a register with the number of a literal holds the literal. Instructions with the same number
computed the same value, however far apart they are and whatever became of it since:
`Numbering.equal_numbers_equal_values`.
-/

namespace MipsFlow

variable {V M : Type}

/-! ## Identifiers -/

namespace ValueKey

/-- How a number is written in the identifier of a value that is made of it. -/
def reference (m : Nat) : String := "%" ++ Text.decimalNat m

/-- The identifier of a value. -/
def text : ValueKey → String
  | .literal n => "$" ++ Text.decimal n.toInt
  | .symbol name => "&" ++ name
  | .result op args => "(" ++ " ".intercalate (op.name :: args.map reference) ++ ")"

theorem reference_injective : Function.Injective reference := by
  intro m k same
  have digits : Nat.toDigits 10 m = Nat.toDigits 10 k := by
    simpa [reference, ← String.toList_inj] using same
  calc m = Nat.ofDigitChars 10 (Nat.toDigits 10 m) 0 := Nat.ofDigitChars_ten_toDigits.symm
    _ = Nat.ofDigitChars 10 (Nat.toDigits 10 k) 0 := by rw [digits]
    _ = k := Nat.ofDigitChars_ten_toDigits

theorem blank_notMem_reference (m : Nat) : ' ' ∉ (reference m).toList := by
  intro blank
  simp only [reference, String.toList_append, List.mem_append, Text.toList_decimalNat] at blank
  rcases blank with mark | digit
  · exact absurd mark (by decide)
  · exact absurd (Text.isDigit_of_mem_toDigits digit) (by decide)

theorem blank_notMem_name (op : Opcode) : ' ' ∉ op.name.toList := by
  intro blank
  have isLabelChar := op.isMnemonic_name.isLabelChar ' ' blank
  exact absurd isLabelChar (by decide)

/-- The identifier of a result is cut into the operation and the numbers at its blanks. -/
theorem words_of_text {op op' : Opcode} {args args' : List Nat}
    (same : (result op args).text = (result op' args').text) :
    op.name :: args.map reference = op'.name :: args'.map reference := by
  have inside : ∀ (op : Opcode) (args : List Nat), ∀ w ∈
      (op.name :: args.map reference).map String.toList, ' ' ∉ w := by
    intro op args
    simp only [List.map_cons, List.forall_mem_cons, List.map_map, List.forall_mem_map]
    exact ⟨blank_notMem_name op, fun m _ => blank_notMem_reference m⟩
  have joined : [' '].intercalate ((op.name :: args.map reference).map String.toList) =
      [' '].intercalate ((op'.name :: args'.map reference).map String.toList) := by
    simpa [text, ← String.toList_inj, String.toList_intercalate] using same
  have words := congrArg (List.splitOn ' ') joined
  rw [List.splitOn_intercalate _ (inside op args) (by simp),
    List.splitOn_intercalate _ (inside op' args') (by simp)] at words
  exact List.map_injective_iff.2 (fun _ _ => String.toList_inj.1) words

/-- No two values have the same identifier. -/
theorem text_injective : Function.Injective text := by
  intro key key' same
  cases key with
  | literal n =>
    cases key' with
    | literal n' =>
      have digits : Text.decimal n.toInt = Text.decimal n'.toInt := by
        simpa [text, ← String.toList_inj] using same
      have value := Text.Numeral.signed_decimal n
      rw [digits, Text.Numeral.signed_decimal n', Except.ok.injEq] at value
      rw [Int64.toInt_inj.1 value]
    | _ => simp [text, ← String.toList_inj] at same
  | symbol name =>
    cases key' with
    | symbol name' => simpa [text, ← String.toList_inj] using same
    | _ => simp [text, ← String.toList_inj] at same
  | result op args =>
    cases key' with
    | result op' args' =>
      obtain ⟨names, references⟩ := List.cons.inj (words_of_text same)
      have ops := congrArg Opcode.ofName? names
      rw [op.ofName?_name, op'.ofName?_name, Option.some.injEq] at ops
      rw [ops, List.map_injective_iff.2 reference_injective references]
    | _ => simp [text, ← String.toList_inj] at same

end ValueKey

/-- In the run, the instruction at the position computes the value, into the one register that it
writes. -/
def Arithmetic.Computed (A : Arithmetic V) (code : List Instr) (states : Nat → MachineState V M)
    (i : Nat) (v : V) : Prop :=
  ∃ p d, code[i]? = some p ∧ p.defs = [d] ∧ (states (i + 1)).read A.zero d = v

namespace Numbering

variable {A : Arithmetic V} {n : Numbering} {ν : Nat → Seen V} {s : MachineState V M}
variable {r q : Reg} {k : Int64} {m : Nat}

/-- The values that can be recognised, by their identifiers. -/
def texts (n : Numbering) : List (String × Nat) := n.keys.map fun (key, m) => (key.text, m)

/-- A value is found under its identifier if it is found at all. -/
theorem lookup_texts (n : Numbering) (key : ValueKey) :
    n.texts.lookup key.text = n.keys.lookup key := by
  unfold texts
  induction n.keys with
  | nil => rfl
  | cons entry rest ih =>
    obtain ⟨other, m⟩ := entry
    have sameTest : (key.text == other.text) = (key == other) := by
      rw [beq_eq_decide, beq_eq_decide]
      exact decide_eq_decide.2 ValueKey.text_injective.eq_iff
    rw [List.map_cons, List.lookup_cons, List.lookup_cons, sameTest, ih]

/-! ## What a number says about a register -/

/-- Registers with the same number hold the same value. -/
theorem Sound.read_eq (sound : n.Sound A ν s) (first : n.regs.lookup r = some m)
    (second : n.regs.lookup q = some m) : s.read A.zero r = s.read A.zero q := by
  obtain ⟨-, holds⟩ := sound.regs r m (mem_of_lookup first)
  obtain ⟨-, holds'⟩ := sound.regs q m (mem_of_lookup second)
  exact Seen.value.inj (holds.trans holds'.symm)

/-- The only literal that is known to be in a register is zero. -/
theorem Sound.read_literal (sound : n.Sound A ν s) (held : n.regs.lookup r = some m)
    (isLiteral : n.keys.lookup (.literal k) = some m) : k = 0 ∧ s.read A.zero r = A.zero := by
  obtain ⟨-, holds⟩ := sound.regs r m (mem_of_lookup held)
  obtain ⟨-, -, looks⟩ := sound.keys _ m (mem_of_lookup isLiteral)
  have same : Seen.value (s.read A.zero r) = ValueKey.seen A ν (.literal k) := holds.trans looks
  rw [ValueKey.seen] at same
  split at same
  · next isZero => exact ⟨isZero, Seen.value.inj same⟩
  · contradiction

/-- A run of straight-line code, from any state, under any meaning in which an operation depends on
its opcode, its literals and symbols and the values of its operands, those that commute do not
depend on the order of them, a copy copies, and a command changes no other registers than it
clobbers. Behind the code, registers with the same number hold the same value, and a register with
the number of a literal holds the word of the literal. Instructions with the same number computed
the same value. -/
theorem equal_numbers_equal_values (A : Arithmetic V) (word : Int64 → V) (zero : word 0 = A.zero)
    (code : List Instr) (states : Nat → MachineState V M) (run : A.Runs code states) :
    let numbers := (initial.followAll code).1
    let n := (initial.followAll code).2
    let s := states code.length
    (∀ r q m, n.regs.lookup r = some m → n.regs.lookup q = some m →
      s.read A.zero r = s.read A.zero q) ∧
    (∀ r k m, n.regs.lookup r = some m →
      n.texts.lookup ("$" ++ Text.decimal k.toInt) = some m → s.read A.zero r = word k) ∧
    ∀ i j m, numbers[i]? = some (some m) → numbers[j]? = some (some m) →
      ∃ v, A.Computed code states i v ∧ A.Computed code states j v := by
  intro numbers n s
  obtain ⟨ν, -, sound, looks⟩ := followAll_runs (initial_sound (s := states 0)) run
  refine ⟨fun r q m first second => sound.read_eq first second, ?_, ?_⟩
  · intro r k m held isLiteral
    have found : n.keys.lookup (.literal k) = some m := (n.lookup_texts _).symm.trans isLiteral
    obtain ⟨rfl, holds⟩ := sound.read_literal held found
    exact holds.trans zero.symm
  · intro i j m first second
    have computed : ∀ i, numbers[i]? = some (some m) →
        ∃ v, ν m = .value v ∧ A.Computed code states i v := by
      intro i numbered
      obtain ⟨p, op, d, xs, here, isCompute, isValue⟩ := looks i m numbered
      exact ⟨_, isValue, p, d, here, isCompute.defs.1, (run i p here).computes isCompute⟩
    obtain ⟨v, isValue, left⟩ := computed i first
    obtain ⟨w, isValue', right⟩ := computed j second
    obtain rfl : v = w := Seen.value.inj (isValue.symm.trans isValue')
    exact ⟨v, left, right⟩

/-- A sum is copied, its register is overwritten, and it is computed again with the operands the
other way round. -/
theorem equal_numbers_equal_values_overwritten :
    let general (n : Fin 32) := Operand.reg (.general n)
    let code : List Instr := [.ofCommand 1 (.ofOpcode .addu [general 8, general 4, general 5]),
      .ofCommand 2 (.copy (.general 9) (.general 8)),
      .ofCommand 3 (.ofOpcode .li [general 8, .imm 7]),
      .ofCommand 4 (.ofOpcode .addu [general 10, general 5, general 4]),
      .ofCommand 5 (.copy (.general 11) .zero)]
    let S := Machine.semantics fun _ => none
    let start : Machine.State :=
      ⟨fun r => if r = .general 4 then 2 else if r = .general 5 then 3 else 0, fun _ => 0⟩
    let states i := S.execAll (code.take i) start
    Word.ofImm 0 = S.arithmetic.zero ∧ S.arithmetic.Runs code states ∧
      initial.followAll code = ([some 4, none, none, some 4, none],
        ⟨4, [(.result .addu [2, 3], 4), (.literal 0, 1)], [(.general 11, 1), (.general 10, 4),
          (.general 9, 4), (.general 5, 3), (.general 4, 2), (.zero, 1)]⟩) ∧
      (states 5).read 0 (.general 9) = (states 5).read 0 (.general 10) ∧
      (states 5).read 0 (.general 11) = Word.ofImm 0 ∧
      ∃ v, S.arithmetic.Computed code states 0 v ∧ S.arithmetic.Computed code states 3 v := by
  intro general code S start states
  have zero : Word.ofImm 0 = S.arithmetic.zero := rfl
  have run : S.arithmetic.Runs code states := S.runs_execAll code start
  obtain ⟨registers, literals, computed⟩ :=
    equal_numbers_equal_values S.arithmetic Word.ofImm zero code states run
  -- the kernel does not unfold sorting; the equations that rewrite a lookup come with computability
  have followed : initial.followAll code = ([some 4, none, none, some 4, none],
      ⟨4, [(.result .addu [2, 3], 4), (.literal 0, 1)], [(.general 11, 1), (.general 10, 4),
        (.general 9, 4), (.general 5, 3), (.general 4, 2), (.zero, 1)]⟩) := by decide_cbv
  simp only [followed] at registers literals computed
  refine ⟨zero, run, followed, registers _ _ 4 rfl rfl, literals _ 0 1 rfl ?_,
    computed 0 3 4 rfl rfl⟩
  decide_cbv

end Numbering

end MipsFlow
