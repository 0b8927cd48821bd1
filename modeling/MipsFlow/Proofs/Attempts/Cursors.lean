import MipsFlow.Cursor
import MipsFlow.Proofs.Attempts.Basic

/-!
# Cursors between what was read and what was not

A pass that reads a sequence with a cursor has the code that it is done with in front of the cursor
(`between`), and the rest behind it (`Cursor.behind`). Reading moves an instruction to the front,
and an exchange puts something else in the place of the instruction just read and of some behind it,
if they are there.
-/

namespace MipsFlow

/-- The instructions behind the cursor. -/
def Cursor.behind (k : Cursor) : List Instr := k.code.drop k.pos

/-- The instructions behind the next one. -/
theorem Cursor.drop_succ (k : Cursor) : k.code.drop (k.pos + 1) = k.behind.tail := by
  rw [behind, List.tail_drop]

namespace Attempt

variable {k : Cursor} {code done rest : List Instr} {p : Instr}

/-- Up to `count` instructions behind the cursor. -/
def peek (k : Cursor) (count : Nat) : Attempt (List Instr) :=
  if k.code.length < k.pos + count then slice k.code k.pos k.code.length
  else slice k.code k.pos (k.pos + count)

theorem peek_eq (inside : k.pos ≤ k.code.length) (count : Nat) :
    peek k count = pure (k.behind.take count) := by
  unfold peek Cursor.behind
  split
  · next beyond =>
    rw [slice_eq inside (Nat.le_refl _), List.take_length, List.take_of_length_le]
    rw [List.length_drop]
    omega
  · next within =>
    rw [slice_eq (Nat.le_add_right _ _) (Nat.le_of_not_lt within), List.drop_take,
      Nat.add_sub_cancel_left]

/-- Exchanges a window of a block. -/
def exchangeAt (code : List Instr) (start count : Nat) (repl : List Instr) :
    Attempt (List Instr) :=
  if start + count ≤ code.length then return Edit.exchange code start count repl
  else throw (.fault (.window start (start + count) code.length))

/-- Exchanging one instruction is to store another in its place. -/
theorem exchangeAt_one {i : Nat} (inside : i < code.length) (p : Instr) :
    exchangeAt code i 1 [p] = pure (code.set i p) := by
  have window : i + 1 ≤ code.length := inside
  rw [exchangeAt, if_pos window, Edit.exchange, List.set_eq_take_append_cons_drop, if_pos inside,
    List.append_assoc, List.singleton_append]

/-- Exchanges a window that begins with the instruction just read. -/
def exchangeRead (k : Cursor) (count : Nat) (repl : List Instr) : Attempt Cursor := do
  if k.fresh then
    let code ← exchangeAt k.code (k.pos - 1) count repl
    return { k with code, room := code.length, pos := k.pos - 1 + repl.length, fresh := false }
  else throw (.fault .nothingRead)

/-- A cursor in front of some code. -/
def between (annotated : Bool) (done rest : List Instr) (fresh : Bool) : Cursor :=
  { code := done ++ rest, annotated, room := (done ++ rest).length, pos := done.length, fresh }

theorem behind_between (annotated : Bool) (done rest : List Instr) (fresh : Bool) :
    (between annotated done rest fresh).behind = rest ∧
      (between annotated done rest fresh).pos ≤
        (between annotated done rest fresh).code.length := by
  simp [between, Cursor.behind]

theorem atEnd_between (annotated : Bool) (done : List Instr) (fresh : Bool) :
    (between annotated done [] fresh).atEnd = true := by
  simp [between, Cursor.atEnd]

theorem read_between (annotated : Bool) (done : List Instr) (p : Instr) (rest : List Instr)
    (fresh : Bool) : (between annotated done (p :: rest) fresh).atEnd = false ∧
      (between annotated done (p :: rest) fresh).read =
        .ok (p, between annotated (done ++ [p]) rest true) := by
  simp [between, Cursor.atEnd, Cursor.read]

theorem index_between (annotated : Bool) (done : List Instr) (p : Instr) (rest : List Instr)
    (fresh : Bool) : index (between annotated done (p :: rest) fresh).code
      (between annotated done (p :: rest) fresh).pos = pure p :=
  index_middle done p rest

theorem store_between (annotated : Bool) (done : List Instr) (p q : Instr) (rest : List Instr)
    (fresh : Bool) : store (between annotated done (p :: rest) fresh).code
      (between annotated done (p :: rest) fresh).pos q = pure (done ++ q :: rest) :=
  store_middle done p q rest

theorem exchangeRead_between {count : Nat} (inside : count ≤ (p :: rest).length) (annotated : Bool)
    (done repl : List Instr) : exchangeRead (between annotated (done ++ [p]) rest true) count repl =
      pure (between annotated (done ++ repl) ((p :: rest).drop count) false) := by
  have place : (done ++ [p]).length - 1 = done.length := by simp
  have whole : done ++ [p] ++ rest = done ++ p :: rest := by simp
  have window : done.length + count ≤ (done ++ p :: rest).length := by
    rw [List.length_append]
    omega
  have exchanged : exchangeAt (done ++ p :: rest) done.length count repl =
      pure (done ++ repl ++ (p :: rest).drop count) := by
    rw [exchangeAt, if_pos window, Edit.exchange, List.take_left, List.drop_append,
      List.drop_of_length_le (Nat.le_add_right _ _), Nat.add_sub_cancel_left, List.nil_append]
  have pos : (done ++ repl).length = done.length + repl.length := List.length_append
  simp only [exchangeRead, between, if_true, place, whole, exchanged, pure_bind, pos]

theorem exchangeRead_one (annotated : Bool) (done : List Instr) (p q : Instr) (rest : List Instr) :
    exchangeRead (between annotated (done ++ [p]) rest true) 1 [q] =
      pure (between annotated (done ++ [q]) rest false) :=
  exchangeRead_between (by simp) annotated done [q]

end Attempt

end MipsFlow
