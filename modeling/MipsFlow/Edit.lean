import MipsFlow.Instr

/-!
# Editing with notes

An edit replaces a window of a sequence by other instructions. In an annotated program nothing
that was noted is lost: the notes of the instructions that go, and the reason of the edit, move
to the first replacement, or to what now stands in its place. An instruction is recognised by its
identity, so that one that is part of the replacement does not count as gone, and an instruction
that stands in several places is annotated in all of them.
-/

namespace MipsFlow

namespace Edit

/-- Applies a change to every occurrence of the instruction with the identity `id`. -/
def update (code : List Instr) (id : Nat) (change : Instr → Instr) : List Instr :=
  code.map fun p => if p.id = id then change p else p

/-- The notes of the instructions of `window` that are not part of `repl`. -/
def inherited (window repl : List Instr) : List String :=
  (window.filter fun p => !repl.any fun q => q.id = p.id).flatMap Instr.notes

/-- The sequence with the window of `count` instructions from `start` on exchanged for `repl`. -/
def exchange (code : List Instr) (start count : Nat) (repl : List Instr) : List Instr :=
  code.take start ++ repl ++ code.drop (start + count)

/-- Who takes the notes of an edit at `start` that left `code`: the first replacement, or the
instruction after the gap, or the one before it at the end of the sequence. -/
def heir? (code : List Instr) (start : Nat) (repl : List Instr) : Option Instr :=
  match repl.head?, code[start]? with
  | some p, _ => some p
  | none, some p => some p
  | none, none => if start = 0 then none else code[start - 1]?

/-- The reason of an edit as a list of notes; an empty one is no note. -/
def reason (note : String) : List String := if note = "" then [] else [note]

/-- Gives the notes to the heir of an edit at `start`. -/
def bequeath (code : List Instr) (start : Nat) (repl : List Instr) (notes : List String) :
    List Instr :=
  match heir? code start repl with
  | some p => update code p.id (·.annotate notes)
  | none => code

/-- Exchanges a window, and keeps the notes if the program is annotated. -/
def splice (annotated : Bool) (code : List Instr) (start count : Nat) (repl : List Instr)
    (note : String) : List Instr :=
  let edited := exchange code start count repl
  if annotated then
    bequeath edited start repl (inherited ((code.drop start).take count) repl ++ reason note)
  else edited

/-- For every instruction that `keep` accepts, the notes of those dropped since the one before;
`pending` are the notes of those dropped so far. What is left at the end goes to `last`, the
identity of the last instruction kept. -/
def legacies (keep : Instr → Bool) : Option Nat → List String → List Instr →
    List (Nat × List String)
  | last, pending, [] => last.toList.map (·, pending)
  | last, pending, p :: rest =>
    if keep p then (p.id, pending) :: legacies keep (some p.id) [] rest
    else legacies keep last (pending ++ p.notes) rest

/-- Keeps the instructions that `keep` accepts. In an annotated program the notes of the others
go to the next instruction kept, those of the last ones to the last instruction kept. -/
def sift (annotated : Bool) (keep : Instr → Bool) (code : List Instr) : List Instr :=
  let kept := code.filter keep
  if annotated then
    (legacies keep none [] code).foldl
      (fun code (id, notes) => update code id (·.annotate notes)) kept
  else kept

end Edit

end MipsFlow
