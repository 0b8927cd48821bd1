import Mathlib.Data.List.Induction
import MipsFlow.Cursor
import MipsFlow.Proofs.Legacies

/-!
# Sequences of calls on a cursor

A cursor is used by calls that follow each other, and a refused call leaves it as it was. This
module says what an accepted call does (`Cursor.Accepted`), and from that what holds after any
sequence of calls: the cursor is inside its code (`Cursor.run_inside`), and an instruction counts as
just read if the last call that moved the cursor was a read (`Cursor.fresh_run_iff`).

All calls that exchange a window are one: they differ in where their window is (`Call.window`), and
in whether an instruction must have been read before (`Call.needsRead`).

* `Cursor.notes_survive`: an accepted call of an annotated cursor loses no note, leaves its reason,
  adds no note twice, and changes nothing but notes of what it leaves.
-/

namespace MipsFlow

namespace Cursor

/-! ## Calls -/

/-- A use of a cursor. -/
inductive Call where
  | read
  | peek (count : Int)
  | reset
  | replace (count : Int) (repl : List Instr) (note : String)
  | replaceAt (start count : Int) (repl : List Instr) (note : String)
  | insert (place : Int) (p : Instr) (note : String)
  | remove (note : String)
  | filter (keep : Instr → Bool)

namespace Call

/-- The instructions that are handed in. -/
def repl : Call → List Instr
  | .replace _ repl _ => repl
  | .replaceAt _ _ repl _ => repl
  | .insert _ p _ => [p]
  | _ => []

/-- The reason that is given for an edit. -/
def reason : Call → String
  | .replace _ _ note => note
  | .replaceAt _ _ _ note => note
  | .insert _ _ note => note
  | .remove note => note
  | _ => ""

/-- The place and the size of the window that is exchanged. -/
def window (k : Cursor) : Call → Option (Int × Int)
  | .replace count _ _ => some ((k.pos - 1 : Nat), count)
  | .replaceAt start count _ _ => some (start, count)
  | .insert place _ _ => some (place, 0)
  | .remove _ => some ((k.pos - 1 : Nat), 1)
  | _ => none

/-- The window begins with the instruction that was just read. -/
def needsRead : Call → Bool
  | .replace .. => true
  | .remove _ => true
  | _ => false

end Call

/-- The answer to a call: the instructions that were asked for, and the cursor afterwards. -/
def call (k : Cursor) : Call → Except Fault (List Instr × Cursor)
  | .read => k.read.map fun (p, next) => ([p], next)
  | .peek count => (k.peek count).map fun ps => (ps, k)
  | .reset => .ok ([], k.reset)
  | .replace count repl note => (k.replace count repl note).map fun next => ([], next)
  | .replaceAt start count repl note =>
    (k.replaceAt start count repl note).map fun next => ([], next)
  | .insert place p note => (k.insert place p note).map fun next => ([], next)
  | .remove note => (k.remove note).map fun next => ([], next)
  | .filter keep => .ok ([], k.filter keep)

/-- The cursor after a call. A refused call leaves it as it was. -/
def after (k : Cursor) (c : Call) : Cursor :=
  match k.call c with
  | .ok (_, next) => next
  | .error _ => k

/-- The cursor after calls that follow each other. -/
def run (k : Cursor) (calls : List Call) : Cursor := calls.foldl after k

variable {k k' : Cursor} {c : Call} {found : List Instr} {calls : List Call}

theorem after_of_ok (accepted : k.call c = .ok (found, k')) : k.after c = k' := by
  rw [after, accepted]

theorem after_of_error {fault : Fault} (refused : k.call c = .error fault) : k.after c = k := by
  rw [after, refused]

@[simp] theorem run_nil (k : Cursor) : k.run [] = k := rfl

@[simp] theorem run_append (k : Cursor) (calls later : List Call) :
    k.run (calls ++ later) = (k.run calls).run later := List.foldl_append

@[simp] theorem run_cons (k : Cursor) (c : Call) (later : List Call) :
    k.run (c :: later) = (k.after c).run later := rfl

/-! ## What an accepted call does -/

/-- What calls do that are not refused: what they find, and what becomes of the cursor. -/
inductive Accepted (k : Cursor) : Call → List Instr → Cursor → Prop
  | read {p : Instr} (here : k.code[k.pos]? = some p) :
    Accepted k .read [p] { k with pos := k.pos + 1, fresh := true }
  | peek {count : Int} (counts : 0 ≤ count) :
    Accepted k (.peek count) ((k.code.drop k.pos).take count.toNat) k
  | reset : Accepted k .reset [] { k with pos := 0, fresh := false }
  | exchange {c : Call} (before window after : List Instr)
    (split : k.code = before ++ window ++ after)
    (isWindow : c.window k = some ((before.length : Int), (window.length : Int)))
    (read : c.needsRead = true → k.fresh = true) :
    Accepted k c [] { k with
      code := Edit.splice k.annotated k.code before.length window.length c.repl c.reason
      room := (Edit.splice k.annotated k.code before.length window.length c.repl c.reason).length
      pos := before.length + c.repl.length
      fresh := false }
  | filter (keep : Instr → Bool) : Accepted k (.filter keep) [] { k with
      code := Edit.sift k.annotated keep k.code
      pos := 0
      fresh := false }

/-- A window is accepted if it is inside the code. -/
theorem replaceAt_eq_ok_iff {start count : Int} {repl : List Instr} {note : String} :
    k.replaceAt start count repl note = .ok k' ↔
      ∃ before window after, k.code = before ++ window ++ after ∧
        start = before.length ∧ count = window.length ∧ k' = { k with
          code := Edit.splice k.annotated k.code before.length window.length repl note
          room := (Edit.splice k.annotated k.code before.length window.length repl note).length
          pos := before.length + repl.length
          fresh := false } := by
  unfold replaceAt
  constructor
  · intro accepted
    split at accepted
    · contradiction
    · next inside =>
      have bounds : start.toNat + count.toNat ≤ k.code.length := by omega
      have atStart : (k.code.take start.toNat).length = start.toNat :=
        List.length_take_of_le (by omega)
      have atCount : ((k.code.drop start.toNat).take count.toNat).length = count.toNat :=
        List.length_take_of_le (by rw [List.length_drop]; omega)
      refine ⟨k.code.take start.toNat, (k.code.drop start.toNat).take count.toNat,
        k.code.drop (start.toNat + count.toNat), ?_, by omega, by omega, ?_⟩
      · rw [List.append_assoc, ← List.drop_drop, List.take_append_drop, List.take_append_drop]
      · rw [atStart, atCount]
        exact (Except.ok.inj accepted).symm
  · rintro ⟨before, window, after, split, rfl, rfl, rfl⟩
    have length : k.code.length = before.length + window.length + after.length := by
      rw [split, List.length_append, List.length_append]
    rw [if_neg (by omega)]
    rfl

/-- Calls that exchange a window do it alike. -/
theorem call_of_window {start count : Int} (isWindow : c.window k = some (start, count)) :
    k.call c = if c.needsRead = true ∧ k.fresh = false then .error .nothingRead
      else (k.replaceAt start count c.repl c.reason).map fun next => ([], next) := by
  cases c with
  | replace | remove =>
    cases isWindow
    cases fresh : k.fresh <;> simp [call, remove, replace, fresh, Call.needsRead, Call.repl,
      Call.reason, Except.map]
  | replaceAt | insert =>
    cases isWindow
    rfl
  | read | peek | reset | filter => cases isWindow

theorem read_eq_ok {p : Instr} (accepted : k.read = .ok (p, k')) :
    k.code[k.pos]? = some p ∧ k' = { k with pos := k.pos + 1, fresh := true } := by
  unfold read at accepted
  split at accepted
  · next here =>
    cases accepted
    exact ⟨here, rfl⟩
  · contradiction

theorem peek_eq_ok {count : Int} (accepted : k.peek count = .ok found) :
    0 ≤ count ∧ found = (k.code.drop k.pos).take count.toNat := by
  unfold peek at accepted
  split at accepted
  · contradiction
  · next counts =>
    split at accepted
    · contradiction
    · exact ⟨Int.not_lt.1 counts, (Except.ok.inj accepted).symm⟩

/-- What a call that is not refused has done. -/
theorem accepted_of_ok (accepted : k.call c = .ok (found, k')) : Accepted k c found k' := by
  cases isWindow : c.window k with
  | some place =>
    rw [call_of_window isWindow] at accepted
    split at accepted
    · contradiction
    · next read =>
      cases exchanged : k.replaceAt place.1 place.2 c.repl c.reason with
      | error fault =>
        rw [exchanged] at accepted
        contradiction
      | ok next =>
        rw [exchanged] at accepted
        cases accepted
        obtain ⟨before, window, after, split, start, count, rfl⟩ :=
          replaceAt_eq_ok_iff.1 exchanged
        refine .exchange before window after split ?_ ?_
        · rw [isWindow, ← start, ← count]
        · simpa using read
  | none =>
    cases c with
    | read =>
      cases reads : k.read with
      | error fault => simp [call, reads, Except.map] at accepted
      | ok next =>
        obtain ⟨here, same⟩ := read_eq_ok reads
        simp only [call, reads, Except.map, Except.ok.injEq, Prod.mk.injEq] at accepted
        rw [← accepted.1, ← accepted.2, same]
        exact .read here
    | peek count =>
      cases peeks : k.peek count with
      | error fault => simp [call, peeks, Except.map] at accepted
      | ok ps =>
        obtain ⟨counts, same⟩ := peek_eq_ok peeks
        simp only [call, peeks, Except.map, Except.ok.injEq, Prod.mk.injEq] at accepted
        rw [← accepted.1, ← accepted.2, same]
        exact .peek counts
    | reset =>
      cases accepted
      exact .reset
    | filter keep =>
      cases accepted
      exact .filter keep
    | replace | replaceAt | insert | remove => cases isWindow

/-! ## The cursor is inside its code -/

/-- What holds between calls. -/
structure Inside (k : Cursor) : Prop where
  pos : k.pos ≤ k.code.length
  fresh : k.fresh = true → 0 < k.pos
  room : k.code.length ≤ k.room

theorem inside_ofCode (code : List Instr) (annotated : Bool) : (ofCode code annotated).Inside := by
  refine ⟨Nat.zero_le _, nofun, ?_⟩
  show code.length ≤ (roomSteps.find? (code.length ≤ ·)).getD code.length
  cases found : roomSteps.find? (code.length ≤ ·) with
  | none => exact Nat.le_refl _
  | some room => simpa using List.find?_some found

theorem length_splice (annotated : Bool) (before window after repl : List Instr)
    (note : String) : (Edit.splice annotated (before ++ window ++ after) before.length window.length
      repl note).length = (before ++ repl ++ after).length := by
  obtain ⟨messages, same⟩ := Edit.splice_annotates annotated (before ++ window ++ after)
    before.length window.length repl note
  rw [same, List.length_map, Edit.exchange_window]

theorem Accepted.inside (accepted : Accepted k c found k') (inside : k.Inside) : k'.Inside := by
  cases accepted with
  | read here =>
    obtain ⟨below, -⟩ := List.getElem?_eq_some_iff.1 here
    exact ⟨below, fun _ => Nat.succ_pos _, inside.room⟩
  | peek => exact inside
  | reset => exact ⟨Nat.zero_le _, nofun, inside.room⟩
  | exchange before window after split =>
    refine ⟨?_, nofun, Nat.le_refl _⟩
    show before.length + c.repl.length ≤ List.length _
    rw [split, length_splice, List.length_append, List.length_append]
    exact Nat.le_add_right _ _
  | filter keep =>
    refine ⟨Nat.zero_le _, nofun, Nat.le_trans ?_ inside.room⟩
    obtain ⟨messages, same⟩ := Edit.sift_annotates k.annotated keep k.code
    show List.length _ ≤ _
    rw [same, List.length_map]
    exact List.length_filter_le ..

theorem Accepted.annotated (accepted : Accepted k c found k') : k'.annotated = k.annotated := by
  cases accepted <;> rfl

theorem after_inside (inside : k.Inside) (c : Call) : (k.after c).Inside := by
  cases answer : k.call c with
  | error fault =>
    rw [after_of_error answer]
    exact inside
  | ok result =>
    rw [after_of_ok answer]
    exact (accepted_of_ok answer).inside inside

theorem run_inside (inside : k.Inside) (calls : List Call) : (k.run calls).Inside := by
  induction calls generalizing k with
  | nil => exact inside
  | cons c rest ih => exact ih (after_inside inside c)

theorem run_annotated (k : Cursor) (calls : List Call) :
    (k.run calls).annotated = k.annotated := by
  induction calls generalizing k with
  | nil => rfl
  | cons c rest ih =>
    rw [run_cons, ih]
    cases answer : k.call c with
    | error fault => rw [after_of_error answer]
    | ok result =>
      rw [after_of_ok answer]
      exact (accepted_of_ok answer).annotated

/-- An accepted call that exchanges a window puts the replacement in its place. -/
theorem Accepted.exchanges {place count : Int}
    (accepted : Accepted k c found k') (isWindow : c.window k = some (place, count)) :
    ∃ before window after, k.code = before ++ window ++ after ∧ place = before.length ∧
      count = window.length ∧ Edit.Annotates (before ++ c.repl ++ after) k'.code ∧
      (k.annotated = false → k'.code = before ++ c.repl ++ after) ∧
      k'.pos = (before ++ c.repl).length := by
  cases accepted with
  | read | peek | reset | filter => contradiction
  | exchange before window after split isWindow' =>
    obtain ⟨rfl, rfl⟩ := Prod.mk.inj (Option.some.inj (isWindow.symm.trans isWindow'))
    have exchanged := Edit.exchange_window before window after c.repl
    rw [← split] at exchanged
    refine ⟨before, window, after, split, rfl, rfl, ?_, fun plain => ?_, ?_⟩
    · rw [← exchanged]
      exact Edit.splice_annotates ..
    · rw [plain, ← exchanged]
      rfl
    · exact List.length_append.symm

/-! ## What was read last -/

/-- A call that leaves the cursor where it is: it only looks ahead, or it is refused. -/
def Idle (k : Cursor) (c : Call) : Prop :=
  (∃ count, c = .peek count) ∨ ∃ fault, k.call c = .error fault

/-- The last of the calls that moved the cursor read the instruction at `place`. -/
def LastRead (k : Cursor) (calls : List Call) (place : Nat) : Prop :=
  ∃ first later p next, calls = first ++ .read :: later ∧ (k.run first).pos = place ∧
    (k.run first).call .read = .ok ([p], next) ∧ ∀ c ∈ later, next.Idle c

theorem Idle.after (idle : k.Idle c) : k.after c = k := by
  rcases idle with ⟨count, rfl⟩ | ⟨fault, refused⟩
  · cases answer : k.call (.peek count) with
    | error fault => exact after_of_error answer
    | ok result =>
      obtain ⟨found, next⟩ := result
      rw [after_of_ok answer]
      cases accepted_of_ok answer with
      | peek => rfl
      | exchange before window after split isWindow => cases isWindow
  · exact after_of_error refused

theorem run_of_idle (idle : ∀ c ∈ calls, k.Idle c) : k.run calls = k := by
  induction calls with
  | nil => rfl
  | cons c rest ih =>
    obtain ⟨first, later⟩ := List.forall_mem_cons.1 idle
    rw [run_cons, first.after, ih later]

theorem LastRead.run {place : Nat} (last : LastRead k calls place) :
    (k.run calls).fresh = true ∧ (k.run calls).pos = place + 1 ∧
      place < (k.run calls).code.length := by
  obtain ⟨first, later, p, next, rfl, rfl, reads, idle⟩ := last
  have atEnd : k.run (first ++ .read :: later) = next := by
    rw [run_append, run_cons, after_of_ok reads, run_of_idle idle]
  rw [atEnd]
  cases accepted_of_ok reads with
  | read here => exact ⟨rfl, rfl, (List.getElem?_eq_some_iff.1 here).1⟩

/-- An idle call does not change what was read last. -/
theorem LastRead.concat {place : Nat} (last : LastRead k calls place)
    (idle : (k.run calls).Idle c) : LastRead k (calls ++ [c]) place := by
  obtain ⟨first, later, p, next, rfl, here, reads, idles⟩ := last
  rw [run_append, run_cons, after_of_ok reads, run_of_idle idles] at idle
  refine ⟨first, later ++ [c], p, next, by simp, here, reads, ?_⟩
  exact List.forall_mem_append.2 ⟨idles, List.forall_mem_singleton.2 idle⟩

/-- An instruction counts as just read if the last call that moved the cursor has read it. -/
theorem fresh_run_iff (start : k.fresh = false) (calls : List Call) :
    (k.run calls).fresh = true ↔ ∃ place, LastRead k calls place := by
  refine ⟨fun fresh => ?_, fun ⟨place, last⟩ => last.run.1⟩
  induction calls using List.reverseRecOn with
  | nil => simp [start] at fresh
  | append_singleton calls c ih =>
    rw [run_append, run_cons, run_nil] at fresh
    have idle (idle : (k.run calls).Idle c) : ∃ place, LastRead k (calls ++ [c]) place := by
      rw [idle.after] at fresh
      obtain ⟨place, last⟩ := ih fresh
      exact ⟨place, last.concat idle⟩
    cases answer : (k.run calls).call c with
    | error fault => exact idle (Or.inr ⟨fault, answer⟩)
    | ok result =>
      obtain ⟨found, next⟩ := result
      rw [after_of_ok answer] at fresh
      cases accepted_of_ok answer with
      | read here => exact ⟨_, calls, [], _, _, rfl, rfl, answer, List.forall_mem_nil _⟩
      | peek => exact idle (Or.inl ⟨_, rfl⟩)
      | reset | exchange | filter => contradiction

/-- A window inside the code can be exchanged, and no other. -/
theorem replaceAt_succeeds_iff {start count : Int} {repl : List Instr} {note : String} :
    (∃ k', k.replaceAt start count repl note = .ok k') ↔
      0 ≤ start ∧ 0 ≤ count ∧ start + count ≤ k.code.length := by
  unfold replaceAt
  constructor
  · rintro ⟨k', accepted⟩
    split at accepted
    · contradiction
    · omega
  · intro inside
    rw [if_neg (by omega)]
    exact ⟨_, rfl⟩

/-- An exchange that begins with the instruction just read succeeds if the last call that moved the
cursor was a read, and the window that begins there is inside the code. -/
theorem replace_succeeds_iff {count : Int} {repl : List Instr} {note : String}
    (start : k.fresh = false) (calls : List Call) :
    (∃ k', (k.run calls).replace count repl note = .ok k') ↔
      ∃ place, LastRead k calls place ∧ 0 ≤ count ∧ place + count ≤ (k.run calls).code.length := by
  unfold replace
  constructor
  · rintro ⟨k', accepted⟩
    split at accepted
    · next fresh =>
      obtain ⟨place, last⟩ := (fresh_run_iff start calls).1 fresh
      obtain ⟨-, counts, inside⟩ := replaceAt_succeeds_iff.1 ⟨k', accepted⟩
      rw [last.run.2.1, Nat.add_sub_cancel] at inside
      exact ⟨place, last, counts, inside⟩
    · contradiction
  · rintro ⟨place, last, counts, inside⟩
    obtain ⟨fresh, pos, -⟩ := last.run
    rw [if_pos fresh, pos, Nat.add_sub_cancel]
    exact replaceAt_succeeds_iff.2 ⟨Int.natCast_nonneg place, counts, inside⟩

theorem remove_succeeds_iff {note : String} (start : k.fresh = false) (calls : List Call) :
    (∃ k', (k.run calls).remove note = .ok k') ↔ ∃ place, LastRead k calls place := by
  refine (replace_succeeds_iff start calls).trans (exists_congr fun place => ?_)
  refine ⟨fun ⟨last, _⟩ => last, fun last => ⟨last, by decide, ?_⟩⟩
  have inside := last.run.2.2
  omega

/-! ## Notes -/

/-- What stands in the code after a call stood there before or was handed in, but for notes. -/
theorem Accepted.annotates (accepted : Accepted k c found k') :
    ∃ stays, stays ⊆ k.code ++ c.repl ∧ Edit.Annotates stays k'.code := by
  cases accepted with
  | read | peek | reset => exact ⟨k.code, List.subset_append_left .., .refl _⟩
  | exchange before window after split =>
    exact ⟨_, Edit.exchange_subset .., Edit.splice_annotates ..⟩
  | filter keep =>
    refine ⟨k.code.filter keep, fun p member => ?_, Edit.sift_annotates ..⟩
    exact List.mem_append_left _ (List.mem_filter.1 member).1

/-- An accepted call loses no note. -/
theorem Accepted.carries {p : Instr} {x : String} (accepted : Accepted k c found k')
    (annotated : k.annotated = true) (coherent : Edit.Coherent (k.code ++ c.repl))
    (nonempty : k'.code ≠ []) (member : p ∈ k.code ++ c.repl) (noted : x ∈ p.notes) :
    ∃ q ∈ k'.code, x ∈ q.notes := by
  cases accepted with
  | read | peek | reset =>
    refine ⟨p, ?_, noted⟩
    simpa [Call.repl] using member
  | exchange before window after split =>
    have isSplice := Edit.splice_annotates k.annotated k.code before.length window.length c.repl
      c.reason
    have left := mt isSplice.eq_nil_iff.2 nonempty
    rw [annotated]
    exact Edit.splice_carries (Edit.length_window_le split) left coherent c.reason member noted
  | filter keep =>
    have left := mt (Edit.sift_annotates k.annotated keep k.code).eq_nil_iff.2 nonempty
    have old : p ∈ k.code := by simpa [Call.repl] using member
    rw [annotated]
    exact Edit.sift_carries left old noted

/-- An accepted call leaves its reason. -/
theorem Accepted.leavesReason (accepted : Accepted k c found k') (annotated : k.annotated = true)
    (nonempty : k'.code ≠ []) (given : c.reason ≠ "") : ∃ q ∈ k'.code, c.reason ∈ q.notes := by
  cases accepted with
  | read | peek | reset | filter => exact absurd rfl given
  | exchange before window after split =>
    have isSplice := Edit.splice_annotates k.annotated k.code before.length window.length c.repl
      c.reason
    have left := mt isSplice.eq_nil_iff.2 nonempty
    rw [annotated]
    exact Edit.splice_reason (Edit.length_window_le split) left given

/-- Annotations survive edits. Take an annotated cursor, whose instructions need not be there only
once, and a call that is accepted and leaves something. Whatever was noted on an instruction that
was there or is handed in is noted on an instruction that is there afterwards, and so is the reason
that is given for an edit. What is there afterwards was there before or was handed in; nothing has
changed of it but its notes, and if no note was on it twice, none is. -/
theorem notes_survive (annotated : k.annotated = true)
    (coherent : Edit.Coherent (k.code ++ c.repl)) (call : k.call c = .ok (found, k'))
    (nonempty : k'.code ≠ []) :
    (∀ p ∈ k.code ++ c.repl, ∀ x ∈ p.notes, ∃ q ∈ k'.code, x ∈ q.notes) ∧
      (c.reason ≠ "" → ∃ q ∈ k'.code, c.reason ∈ q.notes) ∧
      (∀ q ∈ k'.code, ∃ p ∈ k.code ++ c.repl, p.id = q.id) ∧
      ∀ q ∈ k'.code, ∀ p ∈ k.code ++ c.repl, p.id = q.id →
        q.bare = p.bare ∧ (p.notes.Nodup → q.notes.Nodup) := by
  have accepted := accepted_of_ok call
  obtain ⟨stays, subset, annotates⟩ := accepted.annotates
  have origin {q : Instr} (member : q ∈ k'.code) :
      ∃ p ∈ k.code ++ c.repl, ∃ messages, q = p.annotate messages := by
    obtain ⟨p, old, added⟩ := annotates.origin member
    exact ⟨p, subset old, added⟩
  refine ⟨fun p member x => accepted.carries annotated coherent nonempty member,
    accepted.leavesReason annotated nonempty, fun q member => ?_, fun q member p old same => ?_⟩
  · obtain ⟨p, old, messages, rfl⟩ := origin member
    exact ⟨p, old, Instr.id_annotate.symm⟩
  · obtain ⟨p', old', messages, rfl⟩ := origin member
    rw [Instr.id_annotate] at same
    cases coherent p old p' old' same
    exact ⟨p.bare_annotate messages, fun distinct => Instr.nodup_notes_annotate distinct messages⟩

/-- Two copies are exchanged for the second of them and a literal. The first one goes, and the notes
on it go to the second one, with the reason; a note that both have is there once. -/
theorem notes_survive_fused :
    let first : Instr :=
      { Instr.ofCommand 1 (.copy (.general 2) (.general 3)) with notes := ["seen", "moved"] }
    let second : Instr :=
      { Instr.ofCommand 2 (.copy (.general 4) (.general 5)) with notes := ["seen"] }
    let literal : Instr := Instr.ofCommand 3 (.loadImm (.general 2) 7)
    let k : Cursor := (ofCode [first, second] true).run [.read]
    let c : Call := .replace 2 [second, literal] "fused"
    let left : List Instr := [{ second with notes := ["seen", "moved", "fused"] }, literal]
    ∃ k', k.call c = .ok ([], k') ∧ k'.code = left ∧
      (∃ q ∈ k'.code, "moved" ∈ q.notes) ∧ (∃ q ∈ k'.code, "fused" ∈ q.notes) ∧
      ∀ q ∈ k'.code, q.id = second.id → q.bare = second.bare ∧ q.notes.Nodup := by
  intro first second literal k c left
  have accepted : k.call c = .ok ([], {
      code := left
      annotated := true
      room := 2
      pos := 2 }) := by decide +kernel
  have known : k.code ++ c.repl ⊆ [first, second, literal] := by decide +kernel
  have coherent : Edit.Coherent (k.code ++ c.repl) :=
    (Edit.coherent_of_nodup (by decide +kernel)).mono known
  have isFirst : first ∈ k.code ++ c.repl := by decide +kernel
  have isSecond : second ∈ k.code ++ c.repl := by decide +kernel
  obtain ⟨carries, reason, -, only⟩ :=
    notes_survive (by decide +kernel) coherent accepted (by decide +kernel)
  refine ⟨_, accepted, rfl, carries first isFirst "moved" (by decide +kernel),
    reason (by decide +kernel), fun q member same => ?_⟩
  obtain ⟨bare, distinct⟩ := only q member second isSecond same.symm
  exact ⟨bare, distinct (by decide +kernel)⟩

end Cursor

end MipsFlow
