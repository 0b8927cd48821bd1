import Mathlib.Algebra.Group.Int.Defs
import Mathlib.Algebra.Group.Nat.Defs
import MipsFlow.Proofs.Attempts.Basic
import MipsFlow.Proofs.CursorCalls

/-!
# Calls, assignment by assignment

What a call on a cursor comes to has been said with the new cursor as a whole. Here the calls are
`Work` on one cursor that is kept in memory: it is changed by one assignment after the other, and
where something cannot be done, the assignments that were made before remain.
-/

namespace MipsFlow

open Cursor (wrappedSum)

/-- Work on a cursor. Where it breaks down, what has been assigned before remains. -/
abbrev Work (α : Type) := EStateM Breakdown Cursor α

namespace Work

/-- Breaks down if something is wrong. -/
def refuse (wrong : Prop) [Decidable wrong] (breakdown : Breakdown) : Work Unit :=
  if wrong then throw breakdown else pure ()

/-- The instruction at a place. -/
def look (place : Int) : Work Instr := do
  match (← get).get place with
  | .ok p => return p
  | .error fault => throw (.fault fault)

/-- Puts an instruction at a place. -/
def store (place : Nat) (p : Instr) : Work Unit := do
  let k ← get
  refuse (k.code.length ≤ place) (.fault (.outOfBounds place k.code.length))
  set { k with code := k.code.set place p }

/-- The instructions from `start` up to `stop`. The bound for the end is the room that there is. -/
def slice (start stop : Int) : Work (List Instr) := do
  let k ← get
  refuse (stop < 0) (.fault (.wrapped stop))
  refuse (k.room < stop) (.fault (.beyondRoom stop k.room))
  refuse (start < 0 ∨ stop < start) (.slice start.toNat stop.toNat k.code.length)
  return (k.code.take stop.toNat).drop start.toNat

/-- Adds notes, one by one, to the instruction with the identity `id`. -/
def annotate (id : Nat) (notes : List String) : Work Unit :=
  notes.forM fun message =>
    modify fun k => { k with code := Edit.update k.code id (·.note message) }

/-! ## The calls -/

/-- Goes back to the first instruction. -/
def reset : Work Unit := do
  modify fun k => { k with pos := 0 }
  modify fun k => { k with fresh := false }

/-- Reads the next instruction. -/
def read : Work Instr := do
  refuse ((← get).atEnd = true) (.fault .readPastEnd)
  modify fun k => { k with pos := k.pos + 1 }
  modify fun k => { k with fresh := true }
  look ((← get).pos - 1)

/-- Looks ahead. -/
def peek (count : Int) : Work (List Instr) := do
  let k ← get
  refuse (count < 0) (.fault (.peekCount count))
  if k.code.length < wrappedSum k.pos count then slice k.pos k.code.length
  else slice k.pos (wrappedSum k.pos count)

/-- The notes of a window that goes, if changes leave notes. -/
def legacy (start stop : Int) (repl : List Instr) : Work (List String) := do
  if (← get).annotated then return Edit.inherited (← slice start stop) repl else return []

/-- Gives notes to the first replacement, or to what stands in its place, or before it. -/
def bequeath (start : Nat) (repl : List Instr) (notes : List String) : Work Unit := do
  let k ← get
  if k.annotated ∧ notes ≠ [] then
    match repl with
    | p :: _ => annotate p.id notes
    | [] =>
      if start < k.code.length then annotate (← look start).id notes
      else if 0 < start then annotate (← look (start - 1)).id notes
      else pure ()
  else pure ()

/-- Exchanges a window: looks first, and then assigns. -/
def replaceAt (start count : Int) (repl : List Instr) (reason : String) : Work Unit := do
  let stop := wrappedSum start count
  let length := (← get).code.length
  refuse (start < 0 ∨ count < 0 ∨ length < stop) (.fault (.window start stop length))
  let notes ← legacy start stop repl
  refuse ((length : Int) - count + repl.length < 0) (.fault .negativeLength)
  let before ← slice 0 start
  let after ← slice stop length
  let code := before ++ repl ++ after
  modify fun k => { k with code, room := code.length }
  modify fun k => { k with pos := start.toNat + repl.length }
  modify fun k => { k with fresh := false }
  bequeath start.toNat repl (notes ++ Edit.reason reason)

/-- Exchanges a window that begins with the instruction just read. -/
def replace (count : Int) (repl : List Instr) (reason : String) : Work Unit := do
  refuse ((← get).fresh = false) (.fault .nothingRead)
  replaceAt ((← get).pos - 1) count repl reason

end Work

/-- What an answer means for the cursor in memory. If a call is refused, it is as it was. -/
def Cursor.outcome {α : Type} (k : Cursor) :
    Except Fault (α × Cursor) → EStateM.Result Breakdown Cursor α
  | .ok (a, next) => .ok a next
  | .error fault => .error (.fault fault) k

namespace Work

variable {α β : Type} {k k' : Cursor} {w : Work α} {f : α → Work β} {a : α}

theorem bind_ok (first : w.run k = .ok a k') : (w >>= f).run k = (f a).run k' := by
  show EStateM.bind w f k = f a k'
  rw [EStateM.bind, show w k = .ok a k' from first]

theorem bind_error {breakdown : Breakdown} (first : w.run k = .error breakdown k') :
    (w >>= f).run k = .error breakdown k' := by
  show EStateM.bind w f k = _
  rw [EStateM.bind, show w k = .error breakdown k' from first]

theorem get_bind (f : Cursor → Work β) (k : Cursor) : (get >>= f).run k = (f k).run k := rfl

theorem modify_bind (change : Cursor → Cursor) (f : Unit → Work β) (k : Cursor) :
    (modify change >>= f).run k = (f ()).run (change k) := rfl

theorem refuse_pass {wrong : Prop} [Decidable wrong] {breakdown : Breakdown} (right : ¬ wrong) :
    (refuse wrong breakdown).run k = .ok () k := by
  rw [refuse, if_neg right]
  rfl

theorem refuse_fail {wrong : Prop} [Decidable wrong] {breakdown : Breakdown} (isWrong : wrong) :
    (refuse wrong breakdown).run k = .error breakdown k := by
  rw [refuse, if_pos isWrong]
  rfl

theorem look_run {place : Nat} {p : Instr} (here : k.code[place]? = some p) :
    (look place).run k = .ok p k := by
  have found : k.get place = .ok p := by
    rw [Cursor.get, if_neg (Int.not_lt.2 (Int.natCast_nonneg place)), Int.toNat_natCast, here]
  show (match k.get place with
    | .ok p => pure p
    | .error fault => throw (.fault fault) : Work Instr) k = .ok p k
  rw [found]
  rfl

theorem store_run {place : Nat} (inside : place < k.code.length) (p : Instr) :
    (store place p).run k = .ok () { k with code := k.code.set place p } := by
  unfold store
  rw [get_bind, bind_ok (refuse_pass (Nat.not_le.2 inside))]
  rfl

theorem slice_run {start stop : Nat} (room : k.code.length ≤ k.room) (ordered : start ≤ stop)
    (inside : stop ≤ k.code.length) :
    (slice start stop).run k = .ok ((k.code.take stop).drop start) k := by
  unfold slice
  rw [get_bind, bind_ok (refuse_pass (by omega)), bind_ok (refuse_pass (by omega)),
    bind_ok (refuse_pass (by omega)), Int.toNat_natCast, Int.toNat_natCast]
  rfl

/-- The part between two others. -/
theorem slice_between (front part back : List Instr) (room : k.code.length ≤ k.room)
    (split : k.code = front ++ part ++ back) :
    (slice front.length ((front.length + part.length : Nat) : Int)).run k = .ok part k := by
  rw [slice_run room (Nat.le_add_right _ _) (Edit.length_window_le split), split,
    ← List.length_append, List.take_left, List.drop_left]

theorem slice_wrapped {start stop : Int} (wrapped : stop < 0) :
    (slice start stop).run k = .error (.fault (.wrapped stop)) k := by
  unfold slice
  rw [get_bind, bind_error (refuse_fail wrapped)]

theorem slice_beyond {start stop : Int} (positive : 0 ≤ stop) (beyond : k.room < stop) :
    (slice start stop).run k = .error (.fault (.beyondRoom stop k.room)) k := by
  unfold slice
  rw [get_bind, bind_ok (refuse_pass (Int.not_lt.2 positive)), bind_error (refuse_fail beyond)]

theorem update_note_annotate (code : List Instr) (id : Nat) (message : String)
    (rest : List String) : Edit.update (Edit.update code id (·.note message)) id (·.annotate rest) =
      Edit.update code id (·.annotate (message :: rest)) := by
  unfold Edit.update
  rw [List.map_map]
  refine List.map_congr_left fun p _ => ?_
  rw [Function.comp_apply]
  by_cases here : p.id = id
  · have stays : (p.note message).id = id := (Instr.id_of_bare (p.bare_note message)).trans here
    rw [if_pos here, if_pos here, if_pos stays]
    rfl
  · rw [if_neg here, if_neg here, if_neg here]

theorem annotate_run (id : Nat) (notes : List String) (k : Cursor) :
    (annotate id notes).run k =
      .ok () { k with code := Edit.update k.code id (·.annotate notes) } := by
  induction notes generalizing k with
  | nil =>
    rw [Edit.update_annotate_nil]
    rfl
  | cons message rest ih =>
    show (modify _ >>= fun _ => annotate id rest).run k = _
    rw [modify_bind, ih, update_note_annotate]

/-! ## Exchanging a window -/

/-- A sum that fits in a word. -/
theorem wrappedSum_of_lt {a b : Int} (lower : 0 ≤ a + b) (fits : a + b < 2 ^ 63) :
    wrappedSum a b = a + b := by
  unfold wrappedSum Int.bmod
  simp only [UInt64.size]
  omega

/-- A sum of two words that does not fit. -/
theorem wrappedSum_neg {a b : Int} (word : a < 2 ^ 63) (word' : b < 2 ^ 63)
    (exceeds : 2 ^ 63 ≤ a + b) : wrappedSum a b < 0 := by
  unfold wrappedSum Int.bmod
  simp only [UInt64.size]
  omega

theorem legacy_run {start stop : Int} {repl window : List Instr}
    (inside : (slice start stop).run k = .ok window k) :
    (legacy start stop repl).run k =
      .ok (if k.annotated = true then Edit.inherited window repl else []) k := by
  unfold legacy
  rw [get_bind]
  split
  · rw [bind_ok inside]
    rfl
  · rfl

/-- The notes are given to the heir. -/
theorem bequeath_run {start : Nat} {repl : List Instr} (inside : start ≤ k.code.length)
    (notes : List String) : (bequeath start repl notes).run k = .ok () { k with
      code := if k.annotated = true then Edit.bequeath k.code start repl notes else k.code } := by
  unfold bequeath
  rw [get_bind]
  by_cases annotated : k.annotated = true
  · rw [if_pos annotated]
    by_cases silent : notes = []
    · have same : Edit.bequeath k.code start repl notes = k.code := by
        unfold Edit.bequeath
        split
        · rw [silent, Edit.update_annotate_nil]
        · rfl
      rw [if_neg fun both => both.2 silent, same]
      rfl
    · rw [if_pos ⟨annotated, silent⟩, Edit.bequeath]
      cases repl with
      | cons p rest => exact annotate_run ..
      | nil =>
        dsimp only
        by_cases behind : start < k.code.length
        · have here := List.getElem?_eq_getElem behind
          rw [if_pos behind, bind_ok (look_run here), Edit.heir?, List.head?_nil, here]
          exact annotate_run ..
        · have beyond : k.code[start]? = none := List.getElem?_eq_none (Nat.not_lt.1 behind)
          rw [if_neg behind, Edit.heir?, List.head?_nil, beyond]
          by_cases first : start = 0
          · rw [if_neg (Nat.not_lt.2 (Nat.le_of_eq first)), if_pos first]
            rfl
          · have before : start - 1 < k.code.length := by omega
            have here := List.getElem?_eq_getElem before
            have place : (start : Int) - 1 = (start - 1 : Nat) := by omega
            rw [if_pos (Nat.pos_of_ne_zero first), if_neg first, here, place,
              bind_ok (look_run here)]
            exact annotate_run ..
  · rw [if_neg fun both => annotated both.1, if_neg annotated]
    rfl

variable {start count : Int} {repl : List Instr} {reason : String}

theorem splice_window (annotated : Bool) (before window after repl : List Instr)
    (reason : String) : Edit.splice annotated (before ++ window ++ after) before.length
      window.length repl reason =
      if annotated = true then Edit.bequeath (before ++ repl ++ after) before.length repl
        ((if annotated = true then Edit.inherited window repl else []) ++ Edit.reason reason)
      else before ++ repl ++ after := by
  have isWindow : ((before ++ window ++ after).drop before.length).take window.length = window := by
    rw [List.append_assoc, List.drop_left, List.take_left]
  rw [Edit.splice, isWindow, Edit.exchange_window]
  split <;> rfl

/-- A window inside the code is exchanged. -/
theorem replaceAt_ok {before window after : List Instr} (inside : k.Inside)
    (split : k.code = before ++ window ++ after) (memory : k.code.length < 2 ^ 63) :
    (replaceAt before.length window.length repl reason).run k = .ok () { k with
      code := Edit.splice k.annotated k.code before.length window.length repl reason
      room := (Edit.splice k.annotated k.code before.length window.length repl reason).length
      pos := before.length + repl.length
      fresh := false } := by
  have length : k.code.length = before.length + window.length + after.length := by
    rw [split, List.length_append, List.length_append]
  have stop : wrappedSum before.length window.length =
      ((before.length + window.length : Nat) : Int) := by
    rw [wrappedSum_of_lt (by omega) (by omega)]
    rfl
  have isBefore : (slice 0 before.length).run k = .ok before k := by
    have run := slice_between [] before (window ++ after) inside.room
      (by rw [split, List.append_assoc]; rfl)
    rwa [List.length_nil, Nat.zero_add] at run
  have isAfter : (slice ((before.length + window.length : Nat) : Int) k.code.length).run k =
      .ok after k := by
    have run := slice_between (before ++ window) after [] inside.room
      (by rw [split, List.append_nil])
    rwa [List.length_append, ← length] at run
  have room : (before ++ repl ++ after).length =
      (Edit.splice k.annotated k.code before.length window.length repl reason).length := by
    rw [split, Cursor.length_splice]
  have code := splice_window k.annotated before window after repl reason
  rw [← split] at code
  unfold replaceAt
  simp only [stop]
  rw [get_bind, bind_ok (refuse_pass (by omega)),
    bind_ok (legacy_run (slice_between before window after inside.room split)),
    bind_ok (refuse_pass (by omega)), bind_ok isBefore, bind_ok isAfter, modify_bind, modify_bind,
    modify_bind, Int.toNat_natCast, bequeath_run (by simp), ← room, code]

/-- A window outside the code is refused before anything is assigned, at the latest when the part
in front of it is taken. -/
theorem replaceAt_refused (word : start < 2 ^ 63) (word' : count < 2 ^ 63)
    (memory : k.room + k.code.length + repl.length < 2 ^ 63)
    (outside : start < 0 ∨ count < 0 ∨ k.code.length < start + count) :
    (replaceAt start count repl reason).run k =
      .error (.fault (k.windowFault start count repl)) k := by
  unfold replaceAt Cursor.windowFault
  simp only
  rw [get_bind]
  by_cases seen : start < 0 ∨ count < 0 ∨ k.code.length < wrappedSum start count
  · rw [bind_error (refuse_fail seen), if_pos seen]
  · have exceeds : 2 ^ 63 ≤ start + count := by
      by_contra fits
      rw [wrappedSum_of_lt (by omega) (by omega)] at seen
      omega
    have wrapped := wrappedSum_neg word word' exceeds
    rw [bind_ok (refuse_pass seen), if_neg seen]
    by_cases annotated : k.annotated = true
    · have refused : (legacy start (wrappedSum start count) repl).run k =
          .error (.fault (.wrapped (wrappedSum start count))) k := by
        unfold legacy
        rw [get_bind, if_pos annotated, bind_error (slice_wrapped wrapped)]
      rw [bind_error refused, if_pos annotated]
    · have silent : (legacy start (wrappedSum start count) repl).run k = .ok [] k := by
        unfold legacy
        rw [get_bind, if_neg annotated]
        rfl
      rw [bind_ok silent, if_neg annotated]
      by_cases negative : (k.code.length : Int) - count + repl.length < 0
      · rw [bind_error (refuse_fail negative), if_pos negative]
      · rw [bind_ok (refuse_pass negative), if_neg negative,
          bind_error (slice_beyond (by omega) (by omega))]

/-- The work of an exchange comes to the answer of the call. -/
theorem replaceAt_run (inside : k.Inside) (word : start < 2 ^ 63) (word' : count < 2 ^ 63)
    (memory : k.room + k.code.length + repl.length < 2 ^ 63) (reason : String) :
    (replaceAt start count repl reason).run k =
      k.outcome ((k.replaceAt start count repl reason).map fun next => ((), next)) := by
  cases answer : k.replaceAt start count repl reason with
  | ok next =>
    obtain ⟨before, window, after, split, rfl, rfl, rfl⟩ := Cursor.replaceAt_eq_ok_iff.1 answer
    exact replaceAt_ok inside split (by omega)
  | error fault =>
    unfold Cursor.replaceAt at answer
    split at answer
    · next outside =>
      cases answer
      exact replaceAt_refused word word' memory outside
    · contradiction

theorem replace_run (inside : k.Inside) (word : count < 2 ^ 63)
    (memory : k.room + k.code.length + repl.length < 2 ^ 63) (reason : String) :
    (replace count repl reason).run k =
      k.outcome ((k.replace count repl reason).map fun next => ((), next)) := by
  unfold replace Cursor.replace
  rw [get_bind]
  cases fresh : k.fresh with
  | false =>
    rw [bind_error (refuse_fail rfl)]
    rfl
  | true =>
    have place : (k.pos : Int) - 1 = (k.pos - 1 : Nat) := by
      have read := inside.fresh fresh
      omega
    have small : ((k.pos - 1 : Nat) : Int) < 2 ^ 63 := by
      have pos := inside.pos
      omega
    rw [bind_ok (refuse_pass (by simp)), get_bind, place, replaceAt_run inside small word memory]
    rfl

/-! ## Reading -/

theorem read_run (k : Cursor) : (read).run k = k.outcome k.read := by
  unfold read Cursor.read
  rw [get_bind]
  cases here : k.code[k.pos]? with
  | none =>
    have atEnd : k.atEnd = true := decide_eq_true (List.getElem?_eq_none_iff.1 here)
    rw [bind_error (refuse_fail atEnd)]
    rfl
  | some p =>
    have inside : k.pos < k.code.length := (List.getElem?_eq_some_iff.1 here).1
    have notAtEnd : ¬ k.atEnd = true := fun atEnd =>
      Nat.not_le.2 inside (of_decide_eq_true atEnd)
    rw [bind_ok (refuse_pass notAtEnd), modify_bind, modify_bind, get_bind]
    have place : ((k.pos + 1 : Nat) : Int) - 1 = k.pos := by omega
    simp only [place]
    exact look_run here

theorem peek_run (inside : k.Inside) (word : count < 2 ^ 63) (memory : k.code.length < 2 ^ 63) :
    (peek count).run k = k.outcome ((k.peek count).map fun ps => (ps, k)) := by
  have pos := inside.pos
  unfold peek Cursor.peek
  rw [get_bind]
  by_cases negative : count < 0
  · rw [bind_error (refuse_fail negative), if_pos negative]
    rfl
  · rw [bind_ok (refuse_pass negative), if_neg negative]
    by_cases fits : k.pos + count < 2 ^ 63
    · obtain ⟨n, rfl⟩ := Int.eq_ofNat_of_zero_le (Int.not_lt.1 negative)
      have stop : wrappedSum k.pos n = ((k.pos + n : Nat) : Int) := by
        rw [wrappedSum_of_lt (by omega) fits]
        rfl
      rw [stop, if_neg (Int.not_lt.2 (Int.natCast_nonneg _)), Int.toNat_natCast]
      by_cases beyond : (k.code.length : Int) < (k.pos + n : Nat)
      · have all : (k.code.drop k.pos).take n = k.code.drop k.pos :=
          List.take_of_length_le (by rw [List.length_drop]; omega)
        rw [if_pos beyond, slice_run inside.room pos (Nat.le_refl _), List.take_length, all]
        rfl
      · rw [if_neg beyond, slice_run inside.room (Nat.le_add_right _ _) (by omega), List.drop_take,
          Nat.add_sub_cancel_left]
        rfl
    · have wrapped : wrappedSum k.pos count < 0 := wrappedSum_neg (by omega) word (by omega)
      rw [if_neg (by omega), slice_wrapped wrapped, if_pos wrapped]
      rfl

end Work

end MipsFlow
