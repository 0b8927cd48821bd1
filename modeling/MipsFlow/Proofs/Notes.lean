import MipsFlow.Edit

/-!
# Notes say nothing

Annotating an instruction, and handing notes on in an edit, leave every instruction as it is but for
its notes. So an edit is the plain exchange of its window, up to notes.
-/

namespace MipsFlow

namespace Instr

/-- The instruction without its notes. -/
def bare (p : Instr) : Instr := { p with notes := [] }

@[simp] theorem bare_note (p : Instr) (message : String) : (p.note message).bare = p.bare := by
  unfold note
  split <;> rfl

@[simp] theorem bare_annotate (p : Instr) (messages : List String) :
    (p.annotate messages).bare = p.bare := by
  unfold annotate
  induction messages generalizing p with
  | nil => rfl
  | cons message rest ih => rw [List.foldl_cons, ih, bare_note]

theorem mem_notes_note {p : Instr} {message x : String} :
    x ∈ (p.note message).notes ↔ x ∈ p.notes ∨ x = message := by
  unfold note
  split
  · next present =>
    constructor
    · exact Or.inl
    · rintro (old | rfl)
      · exact old
      · exact List.contains_iff_mem.1 present
  · simp

theorem mem_notes_annotate {p : Instr} {messages : List String} {x : String} :
    x ∈ (p.annotate messages).notes ↔ x ∈ p.notes ∨ x ∈ messages := by
  unfold annotate
  induction messages generalizing p with
  | nil => simp
  | cons message rest ih => rw [List.foldl_cons, ih, mem_notes_note, List.mem_cons, or_assoc]

/-- Notes that are there already are not added. -/
theorem annotate_of_subset {p : Instr} {messages : List String} (present : messages ⊆ p.notes) :
    p.annotate messages = p := by
  unfold annotate
  induction messages with
  | nil => rfl
  | cons message rest ih =>
    obtain ⟨here, later⟩ := List.cons_subset.1 present
    have same : p.note message = p := by
      unfold note
      rw [if_pos (List.contains_iff_mem.2 here)]
    rw [List.foldl_cons, same, ih later]

theorem annotate_annotate (p : Instr) (messages : List String) :
    (p.annotate messages).annotate messages = p.annotate messages :=
  annotate_of_subset fun _ member => mem_notes_annotate.2 (Or.inr member)

theorem content_of_bare {p q : Instr} (same : p.bare = q.bare) : p.content = q.content := by
  have contents := congrArg Instr.content same
  exact contents

theorem id_of_bare {p q : Instr} (same : p.bare = q.bare) : p.id = q.id := by
  have ids := congrArg Instr.id same
  exact ids

theorem comment_of_bare {p q : Instr} (same : p.bare = q.bare) : p.comment = q.comment := by
  have comments := congrArg Instr.comment same
  exact comments

@[simp] theorem content_note (p : Instr) (message : String) :
    (p.note message).content = p.content := content_of_bare (p.bare_note message)

@[simp] theorem content_annotate (p : Instr) (messages : List String) :
    (p.annotate messages).content = p.content := content_of_bare (p.bare_annotate messages)

/-- Code that is the same up to notes says the same. -/
theorem map_content_of_bare {a b : List Instr} (same : a.map bare = b.map bare) :
    a.map content = b.map content := by
  have contents := congrArg (List.map Instr.content) same
  rwa [List.map_map, List.map_map] at contents

end Instr

namespace Edit

theorem bare_update {code : List Instr} {id : Nat} {change : Instr → Instr}
    (silent : ∀ p, (change p).bare = p.bare) :
    (update code id change).map Instr.bare = code.map Instr.bare := by
  unfold update
  rw [List.map_map]
  refine List.map_congr_left fun p _ => ?_
  simp only [Function.comp_apply]
  split
  · exact silent p
  · rfl

theorem bare_bequeath (code : List Instr) (start : Nat) (repl : List Instr)
    (notes : List String) :
    (bequeath code start repl notes).map Instr.bare = code.map Instr.bare := by
  unfold bequeath
  split
  · exact bare_update fun p => p.bare_annotate notes
  · rfl

theorem bare_splice (annotated : Bool) (code : List Instr) (start count : Nat)
    (repl : List Instr) (note : String) :
    (splice annotated code start count repl note).map Instr.bare =
      (exchange code start count repl).map Instr.bare := by
  unfold splice
  split
  · exact bare_bequeath ..
  · rfl

theorem content_splice (annotated : Bool) (code : List Instr) (start count : Nat)
    (repl : List Instr) (note : String) :
    (splice annotated code start count repl note).map Instr.content =
      (exchange code start count repl).map Instr.content :=
  Instr.map_content_of_bare (bare_splice ..)

theorem exchange_window (before window after repl : List Instr) :
    exchange (before ++ window ++ after) before.length window.length repl =
      before ++ repl ++ after := by
  unfold exchange
  rw [← List.length_append, List.drop_left, List.append_assoc before, List.take_left]

end Edit

end MipsFlow
