import Mathlib.Data.List.Nodup
import MipsFlow.Proofs.Notes

/-!
# Notes are handed on

Editing an annotated sequence adds notes to the instructions that stay, and changes nothing else of
them (`Edit.Annotates`). What is added depends on the identity only, so an identity that stands for
one instruction (`Edit.Coherent`) goes on doing so. The notes of the instructions that go, and the
reason of the edit, are added to instructions that stay, as long as any stay.

* `Edit.splice_carries`, `Edit.splice_reason`: an exchange of a window loses no note, and leaves its
  reason.
* `Edit.sift_carries`: dropping instructions loses no note.
-/

namespace MipsFlow

namespace Instr

variable {p : Instr} {messages more : List String}

theorem annotate_append : p.annotate (messages ++ more) = (p.annotate messages).annotate more :=
  List.foldl_append

@[simp] theorem id_annotate : (p.annotate messages).id = p.id :=
  id_of_bare (p.bare_annotate messages)

theorem nodup_notes_note (distinct : p.notes.Nodup) (message : String) :
    (p.note message).notes.Nodup := by
  unfold note
  split
  · exact distinct
  · next absent =>
    refine distinct.append (List.nodup_singleton message) (List.disjoint_singleton.2 ?_)
    exact fun present => absent (List.contains_iff_mem.2 present)

/-- No note is added for the second time. -/
theorem nodup_notes_annotate (distinct : p.notes.Nodup) (messages : List String) :
    (p.annotate messages).notes.Nodup := by
  unfold annotate
  induction messages generalizing p with
  | nil => exact distinct
  | cons message rest ih => exact ih (nodup_notes_note distinct message)

end Instr

namespace Edit

variable {code others repl : List Instr} {start count id : Nat} {notes : List String}
variable {reason x : String} {p q : Instr} {keep : Instr → Bool}

/-! ## Identities -/

/-- An identity stands for one instruction, in however many places it stands. -/
def Coherent (code : List Instr) : Prop := ∀ p ∈ code, ∀ q ∈ code, p.id = q.id → p = q

theorem Coherent.mono (coherent : Coherent code) (subset : others ⊆ code) : Coherent others :=
  fun p member q member' => coherent p (subset member) q (subset member')

/-- Instructions that are pairwise distinct. -/
theorem coherent_of_nodup (distinct : (code.map Instr.id).Nodup) : Coherent code :=
  fun _ member _ member' => List.inj_on_of_nodup_map distinct member member'

/-! ## Adding notes -/

@[simp] theorem length_update (code : List Instr) (id : Nat) (change : Instr → Instr) :
    (update code id change).length = code.length := List.length_map ..

theorem update_append (code others : List Instr) (id : Nat) (change : Instr → Instr) :
    update (code ++ others) id change = update code id change ++ update others id change :=
  List.map_append

theorem update_annotate_nil (code : List Instr) (id : Nat) :
    update code id (·.annotate []) = code := by
  refine (List.map_congr_left fun p _ => ?_).trans (List.map_id code)
  split <;> rfl

/-- The second code is the first one with notes added, the same ones wherever an instruction
stands. -/
def Annotates (code others : List Instr) : Prop :=
  ∃ messages : Nat → List String, others = code.map fun p => p.annotate (messages p.id)

namespace Annotates

theorem refl (code : List Instr) : Annotates code code := ⟨fun _ => [], (List.map_id code).symm⟩

theorem update (code : List Instr) (id : Nat) (notes : List String) :
    Annotates code (update code id (·.annotate notes)) := by
  refine ⟨fun other => if other = id then notes else [], List.map_congr_left fun p _ => ?_⟩
  by_cases heir : p.id = id
  · simp only [heir, if_true]
  · simp only [heir, if_false]
    rfl

theorem mem (annotates : Annotates code others) (member : p ∈ code) :
    ∃ messages, p.annotate messages ∈ others := by
  obtain ⟨messages, rfl⟩ := annotates
  exact ⟨_, List.mem_map_of_mem member⟩

theorem origin (annotates : Annotates code others) (member : q ∈ others) :
    ∃ p ∈ code, ∃ messages, q = p.annotate messages := by
  obtain ⟨messages, rfl⟩ := annotates
  obtain ⟨p, old, rfl⟩ := List.mem_map.1 member
  exact ⟨p, old, _, rfl⟩

/-- Nothing is added to no code. -/
theorem eq_nil_iff (annotates : Annotates code others) : others = [] ↔ code = [] := by
  obtain ⟨messages, rfl⟩ := annotates
  exact List.map_eq_nil_iff

/-- Notes that were there stay. -/
theorem carries (annotates : Annotates code others) (member : p ∈ code) (noted : x ∈ p.notes) :
    ∃ q ∈ others, x ∈ q.notes := by
  obtain ⟨messages, there⟩ := annotates.mem member
  exact ⟨_, there, Instr.mem_notes_annotate.2 (Or.inl noted)⟩

end Annotates

/-! ## Exchanging a window -/

theorem splice_annotates (annotated : Bool) (code : List Instr) (start count : Nat)
    (repl : List Instr) (reason : String) :
    Annotates (exchange code start count repl)
      (splice annotated code start count repl reason) := by
  cases annotated with
  | false => exact .refl _
  | true =>
    rw [splice, if_pos rfl, bequeath]
    split
    · exact .update ..
    · exact .refl _

theorem exchange_subset (code : List Instr) (start count : Nat) (repl : List Instr) :
    exchange code start count repl ⊆ code ++ repl := by
  intro p member
  rcases List.mem_append.1 member with front | back
  · rcases List.mem_append.1 front with before | new
    · exact List.mem_append_left _ (List.take_subset _ _ before)
    · exact List.mem_append_right _ new
  · exact List.mem_append_left _ (List.drop_subset _ _ back)

theorem length_window_le {before window after : List Instr}
    (split : code = before ++ window ++ after) : before.length + window.length ≤ code.length := by
  rw [split, List.length_append, List.length_append]
  exact Nat.le_add_right _ _

/-- There is somebody to take the notes of an edit, unless nothing is left. -/
theorem exists_heir (inside : start + count ≤ code.length)
    (nonempty : exchange code start count repl ≠ []) :
    ∃ p ∈ exchange code start count repl,
      heir? (exchange code start count repl) start repl = some p := by
  unfold heir?
  split
  · next p first =>
    obtain ⟨rest, rfl⟩ := List.head?_eq_some_iff.1 first
    exact ⟨p, by simp [exchange], rfl⟩
  · next p first here => exact ⟨p, List.mem_of_getElem? here, rfl⟩
  · next first beyond =>
    have short := List.getElem?_eq_none_iff.1 beyond
    have length : start ≤ (exchange code start count repl).length := by
      rw [exchange, List.length_append, List.length_append, List.length_take]
      omega
    have some := List.length_pos_of_ne_nil nonempty
    rw [if_neg (by omega)]
    have last : start - 1 < (exchange code start count repl).length := by omega
    exact ⟨_, List.getElem_mem last, List.getElem?_eq_getElem last⟩

theorem bequeath_gives (inside : start + count ≤ code.length)
    (nonempty : exchange code start count repl ≠ []) (member : x ∈ notes) :
    ∃ q ∈ bequeath (exchange code start count repl) start repl notes, x ∈ q.notes := by
  obtain ⟨p, here, isHeir⟩ := exists_heir inside nonempty
  have given : p.annotate notes ∈ update (exchange code start count repl) p.id (·.annotate notes) :=
    List.mem_map.2 ⟨p, here, if_pos rfl⟩
  unfold bequeath
  rw [isHeir]
  exact ⟨_, given, Instr.mem_notes_annotate.2 (Or.inr member)⟩

/-- An exchange leaves its reason. -/
theorem splice_reason (inside : start + count ≤ code.length)
    (nonempty : exchange code start count repl ≠ []) (given : reason ≠ "") :
    ∃ q ∈ splice true code start count repl reason, reason ∈ q.notes := by
  refine bequeath_gives inside nonempty (List.mem_append_right _ ?_)
  rw [Edit.reason, if_neg given]
  exact List.mem_singleton_self reason

/-- The window of an edit, and what is around it. -/
theorem mem_window (member : p ∈ code) (start count : Nat) :
    p ∈ code.take start ∨ p ∈ (code.drop start).take count ∨ p ∈ code.drop (start + count) := by
  rw [← List.take_append_drop start code, List.mem_append] at member
  refine member.imp_right fun later => ?_
  rw [← List.take_append_drop count (code.drop start), List.mem_append, List.drop_drop] at later
  exact later

/-- An exchange loses no note. What was in the window either is in the replacement too, or hands its
notes on. -/
theorem splice_carries (inside : start + count ≤ code.length)
    (nonempty : exchange code start count repl ≠ []) (coherent : Coherent (code ++ repl))
    (reason : String) (member : p ∈ code ++ repl) (noted : x ∈ p.notes) :
    ∃ q ∈ splice true code start count repl reason, x ∈ q.notes := by
  have stays (here : p ∈ exchange code start count repl) :
      ∃ q ∈ splice true code start count repl reason, x ∈ q.notes :=
    (splice_annotates true code start count repl reason).carries here noted
  have kept (here : p ∈ repl) : p ∈ exchange code start count repl :=
    List.mem_append_left _ (List.mem_append_right _ here)
  rcases List.mem_append.1 member with old | new
  · rcases mem_window old start count with before | gone | after
    · exact stays (List.mem_append_left _ (List.mem_append_left _ before))
    · by_cases again : ∃ q ∈ repl, q.id = p.id
      · obtain ⟨q, isRepl, same⟩ := again
        have isSame := coherent q (List.mem_append_right _ isRepl) p member same
        exact stays (kept (isSame ▸ isRepl))
      · refine bequeath_gives inside nonempty (List.mem_append_left _ ?_)
        refine List.mem_flatMap.2 ⟨p, List.mem_filter.2 ⟨gone, ?_⟩, noted⟩
        simpa using again
    · exact stays (List.mem_append_right _ after)
  · exact stays (kept new)

/-! ## Dropping instructions -/

/-- The notes that are meant for an identity. -/
def bequests (id : Nat) (legacies : List (Nat × List String)) : List String :=
  (legacies.filter fun legacy => legacy.1 = id).flatMap Prod.snd

/-- Hands on legacies, one after the other. -/
def handOn (legacies : List (Nat × List String)) (code : List Instr) : List Instr :=
  legacies.foldl (fun code (id, notes) => update code id (·.annotate notes)) code

/-- In the end, everyone has what is meant for them. -/
theorem handOn_eq_map (legacies : List (Nat × List String)) (code : List Instr) :
    handOn legacies code = code.map fun p => p.annotate (bequests p.id legacies) := by
  induction legacies generalizing code with
  | nil => exact (List.map_id code).symm
  | cons legacy rest ih =>
    obtain ⟨id, notes⟩ := legacy
    show handOn rest (update code id (·.annotate notes)) = _
    rw [ih, update, List.map_map]
    refine List.map_congr_left fun p _ => ?_
    rw [Function.comp_apply]
    by_cases heir : p.id = id
    · rw [if_pos heir, Instr.id_annotate, ← Instr.annotate_append, bequests, bequests,
        List.filter_cons_of_pos (by simp [heir]), List.flatMap_cons]
    · rw [if_neg heir, bequests, bequests, List.filter_cons_of_neg (by simp [Ne.symm heir])]

@[simp] theorem length_handOn (legacies : List (Nat × List String)) (code : List Instr) :
    (handOn legacies code).length = code.length := by
  rw [handOn_eq_map, List.length_map]

theorem sift_true (keep : Instr → Bool) (code : List Instr) :
    sift true keep code = handOn (legacies keep none [] code) (code.filter keep) := rfl

theorem sift_annotates (annotated : Bool) (keep : Instr → Bool) (code : List Instr) :
    Annotates (code.filter keep) (sift annotated keep code) := by
  cases annotated with
  | false => exact .refl _
  | true => exact ⟨fun id => bequests id (legacies keep none [] code), handOn_eq_map ..⟩

theorem legacies_of_kept (kept : keep p = true) (last : Option Nat) (pending : List String)
    (rest : List Instr) : legacies keep last pending (p :: rest) =
      (p.id, pending) :: legacies keep (some p.id) [] rest := by
  rw [legacies, if_pos kept]

theorem legacies_of_dropped (dropped : keep p = false) (last : Option Nat) (pending : List String)
    (rest : List Instr) : legacies keep last pending (p :: rest) =
      legacies keep last (pending ++ p.notes) rest := by
  rw [legacies, if_neg (Bool.eq_false_iff.1 dropped)]

/-- Legacies go to instructions that are kept. -/
theorem legacies_heir {last : Option Nat} {pending : List String}
    (member : (id, notes) ∈ legacies keep last pending code) :
    last = some id ∨ ∃ q ∈ code, keep q = true ∧ q.id = id := by
  induction code generalizing last pending with
  | nil =>
    obtain ⟨heir, isLast, same⟩ := List.mem_map.1 member
    cases same
    exact Or.inl (Option.mem_toList.1 isLast)
  | cons p rest ih =>
    cases kept : keep p with
    | true =>
      rw [legacies_of_kept kept] at member
      refine Or.inr ?_
      rcases List.mem_cons.1 member with first | further
      · cases first
        exact ⟨p, List.mem_cons_self .., kept, rfl⟩
      · rcases ih further with same | ⟨q, inside, heir⟩
        · exact ⟨p, List.mem_cons_self .., kept, Option.some.inj same⟩
        · exact ⟨q, List.mem_cons_of_mem _ inside, heir⟩
    | false =>
      rw [legacies_of_dropped kept] at member
      exact (ih member).imp_right fun ⟨q, inside, heir⟩ =>
        ⟨q, List.mem_cons_of_mem _ inside, heir⟩

/-- Every note of an instruction that is dropped is in a legacy, if there is anyone to take it. -/
theorem legacies_carry {last : Option Nat} {pending : List String}
    (heir : last.isSome = true ∨ ∃ q ∈ code, keep q = true)
    (member : x ∈ pending ∨ ∃ p ∈ code, keep p = false ∧ x ∈ p.notes) :
    ∃ id notes, (id, notes) ∈ legacies keep last pending code ∧ x ∈ notes := by
  induction code generalizing last pending with
  | nil =>
    have isLast : last.isSome = true := heir.resolve_right (by simp)
    obtain ⟨id, rfl⟩ := Option.isSome_iff_exists.1 isLast
    exact ⟨id, pending, by simp [legacies], member.resolve_right (by simp)⟩
  | cons p rest ih =>
    have elsewhere {q : Instr} (inside : q ∈ p :: rest) (differs : keep q ≠ keep p) : q ∈ rest :=
      (List.mem_cons.1 inside).resolve_left fun same => differs (congrArg keep same)
    cases kept : keep p with
    | true =>
      rw [legacies_of_kept kept]
      rcases member with waiting | ⟨q, inside, dropped, noted⟩
      · exact ⟨p.id, pending, List.mem_cons_self .., waiting⟩
      · have later := elsewhere inside (by simp [kept, dropped])
        obtain ⟨id, notes, further, has⟩ :=
          ih (Or.inl (Option.isSome_some (a := p.id))) (Or.inr ⟨q, later, dropped, noted⟩)
        exact ⟨id, notes, List.mem_cons_of_mem _ further, has⟩
    | false =>
      rw [legacies_of_dropped kept]
      have heir : last.isSome = true ∨ ∃ q ∈ rest, keep q = true :=
        heir.imp_right fun ⟨q, inside, accepted⟩ =>
          ⟨q, elsewhere inside (by simp [kept, accepted]), accepted⟩
      refine ih heir ?_
      rcases member with waiting | ⟨q, inside, dropped, noted⟩
      · exact Or.inl (List.mem_append_left _ waiting)
      · rcases List.mem_cons.1 inside with rfl | later
        · exact Or.inl (List.mem_append_right _ noted)
        · exact Or.inr ⟨q, later, dropped, noted⟩

/-- Dropping instructions loses no note, if any are kept. -/
theorem sift_carries (nonempty : code.filter keep ≠ []) (member : p ∈ code)
    (noted : x ∈ p.notes) : ∃ q ∈ sift true keep code, x ∈ q.notes := by
  cases accepted : keep p with
  | true =>
    have kept : p ∈ code.filter keep := List.mem_filter.2 ⟨member, accepted⟩
    exact (sift_annotates true keep code).carries kept noted
  | false =>
    obtain ⟨q, isKept⟩ := List.exists_mem_of_ne_nil _ nonempty
    obtain ⟨id, notes, legacy, has⟩ :
        ∃ id notes, (id, notes) ∈ legacies keep none [] code ∧ x ∈ notes :=
      legacies_carry (Or.inr ⟨q, List.mem_filter.1 isKept⟩) (Or.inr ⟨p, member, accepted, noted⟩)
    obtain ⟨heir, inside, isHeir, rfl⟩ := (legacies_heir legacy).resolve_left (by simp)
    have meant : x ∈ bequests heir.id (legacies keep none [] code) :=
      List.mem_flatMap.2 ⟨(heir.id, notes), List.mem_filter.2 ⟨legacy, by simp⟩, has⟩
    rw [sift_true, handOn_eq_map]
    exact ⟨_, List.mem_map_of_mem (List.mem_filter.2 ⟨inside, isHeir⟩),
      Instr.mem_notes_annotate.2 (Or.inr meant)⟩

end Edit

end MipsFlow
