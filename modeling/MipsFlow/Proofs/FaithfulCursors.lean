import MipsFlow.Proofs.CursorWork

/-!
# Cursors edit faithfully

Dropping instructions works in place: those that are kept move to the front, and the notes of those
dropped wait for the next one that is kept. With this, every call on a cursor is `Work`
(`Cursor.Call.work`), and the work of a call comes to its answer (`Cursor.work_run`). What is kept
must not depend on the notes that are handed on in the meantime (`Work.Steady`), as it cannot if
the instructions are pairwise distinct.

* `Cursor.calls_exact`: what holds after any sequence of calls on a new cursor, and of the next one.
-/

namespace MipsFlow

namespace Work

/-! ## Dropping instructions in place -/

/-- Moves the instructions that are kept to the front, in place. Those before `place` have been
looked at, `kept` of them stay, and the notes of those dropped since are waiting. -/
def compact (keep : Instr → Bool) : Nat → Nat → Nat → List String → Work (Nat × List String)
  | 0, _, kept, notes => return (kept, notes)
  | left + 1, place, kept, notes => do
    let p ← look place
    if keep p then
      store kept p
      if (← get).annotated then
        annotate p.id notes
        compact keep left (place + 1) (kept + 1) []
      else compact keep left (place + 1) (kept + 1) notes
    else compact keep left (place + 1) kept (notes ++ p.notes)

/-- Gives the notes that nothing follows to the last instruction that was kept. -/
def bequeathLast (kept : Nat) (notes : List String) : Work Unit := do
  if (← get).annotated ∧ notes ≠ [] ∧ kept ≠ 0 then annotate (← look (kept - 1)).id notes
  else pure ()

/-- Keeps the instructions that `keep` accepts. -/
def filter (keep : Instr → Bool) : Work Unit := do
  let (kept, notes) ← compact keep (← get).code.length 0 0 []
  bequeathLast kept notes
  modify fun k => { k with code := k.code.take kept }
  reset

/-- An instruction that is kept is kept wherever it stands again, whatever has been noted on it in
the meantime. -/
def Steady (keep : Instr → Bool) (code : List Instr) : Prop :=
  code.Pairwise fun p q => keep p = true → q.id = p.id → ∀ notes, keep (q.annotate notes) = true

/-- Instructions that are pairwise distinct do not stand anywhere again. -/
theorem steady_of_nodup {code : List Instr} (distinct : (code.map Instr.id).Nodup)
    (keep : Instr → Bool) : Steady keep code :=
  (List.pairwise_map.1 distinct).imp fun different _ same => absurd same.symm different

variable {keep : Instr → Bool} {k : Cursor} {front junk rest : List Instr} {p : Instr}

/-- Notes on an instruction that is kept in any case change nothing about what is kept. -/
theorem filter_update {id : Nat} (kept : ∀ q ∈ rest, q.id = id → ∀ notes,
    keep (q.annotate notes) = true) (notes : List String) :
    (Edit.update rest id (·.annotate notes)).filter keep =
      Edit.update (rest.filter keep) id (·.annotate notes) := by
  unfold Edit.update
  rw [List.filter_map]
  refine congrArg (List.map _) (List.filter_congr fun q member => ?_)
  rw [Function.comp_apply]
  split
  · next here => rw [kept q member here notes, show keep q = true from kept q member here []]
  · rfl

/-- Nor about what is handed on. -/
theorem legacies_update {id : Nat} (kept : ∀ q ∈ rest, q.id = id → ∀ notes,
    keep (q.annotate notes) = true) (notes : List String) (last : Option Nat)
    (pending : List String) :
    Edit.legacies keep last pending (Edit.update rest id (·.annotate notes)) =
      Edit.legacies keep last pending rest := by
  induction rest generalizing last pending with
  | nil => rfl
  | cons q rest ih =>
    obtain ⟨first, later⟩ := List.forall_mem_cons.1 kept
    show Edit.legacies keep last pending ((if q.id = id then q.annotate notes else q) ::
      Edit.update rest id (·.annotate notes)) = _
    by_cases here : q.id = id
    · have isKept : keep q = true := first here []
      rw [if_pos here, Edit.legacies_of_kept (first here notes), Edit.legacies_of_kept isKept,
        Instr.id_annotate, ih later]
    · rw [if_neg here, Edit.legacies, Edit.legacies, ih later, ih later]

theorem steady_update {id : Nat} (steady : Steady keep rest)
    (kept : ∀ q ∈ rest, q.id = id → ∀ notes, keep (q.annotate notes) = true)
    (notes : List String) : Steady keep (Edit.update rest id (·.annotate notes)) := by
  unfold Steady Edit.update
  rw [List.pairwise_map]
  refine steady.imp_of_mem fun {p q} _ member pair isKept same more => ?_
  have ids (x : Instr) : (if x.id = id then x.annotate notes else x).id = x.id := by
    split
    · exact Instr.id_annotate
    · rfl
  rw [ids, ids] at same
  by_cases here : q.id = id
  · rw [if_pos here, ← Instr.annotate_append]
    exact kept q member here _
  · rw [if_neg here]
    rw [if_neg (same ▸ here)] at isKept
    exact pair isKept same more

/-- The instruction behind those that are kept takes a place among them. -/
theorem set_behind (front junk : List Instr) (p : Instr) (rest : List Instr) :
    ∃ junk', junk'.length = junk.length ∧
      (front ++ junk ++ p :: rest).set front.length p = front ++ [p] ++ junk' ++ rest := by
  cases junk with
  | nil => exact ⟨[], rfl, by simp⟩
  | cons j junk => exact ⟨junk ++ [p], by simp, by simp⟩

theorem look_behind (code : k.code = front ++ junk ++ p :: rest) :
    (look ((front.length + junk.length : Nat) : Int)).run k = .ok p k :=
  look_run (by rw [code, ← List.length_append]; simp)

/-- Passing over an instruction that is dropped. -/
theorem compact_drop (code : k.code = front ++ junk ++ p :: rest) (dropped : keep p = false)
    (left : Nat) (pending : List String) :
    (compact keep (left + 1) (front.length + junk.length) front.length pending).run k =
      (compact keep left (front.length + junk.length + 1) front.length
        (pending ++ p.notes)).run k := by
  rw [compact, bind_ok (look_behind code), dropped]
  rfl

/-- Moving an instruction that is kept. -/
theorem compact_keep (code : k.code = front ++ junk ++ p :: rest) (kept : keep p = true)
    (left : Nat) (pending : List String) :
    ∃ junk', junk'.length = junk.length ∧
      (compact keep (left + 1) (front.length + junk.length) front.length pending).run k =
        if k.annotated = true then
          (compact keep left (front.length + junk.length + 1) (front.length + 1) []).run { k with
            code := Edit.update (front ++ [p] ++ junk' ++ rest) p.id (·.annotate pending) }
        else (compact keep left (front.length + junk.length + 1) (front.length + 1) pending).run
          { k with code := front ++ [p] ++ junk' ++ rest } := by
  obtain ⟨junk', length, moved⟩ := set_behind front junk p rest
  have inside : front.length < k.code.length := by
    rw [code, List.length_append, List.length_append, List.length_cons]
    omega
  refine ⟨junk', length, ?_⟩
  rw [compact, bind_ok (look_behind code), if_pos kept, bind_ok (store_run inside p), get_bind,
    code, moved]
  split
  · rw [bind_ok (annotate_run ..)]
  · rfl

/-- Where changes leave no notes, the instructions that are kept come to stand one after the
other. -/
theorem compact_plain (keep : Instr → Bool) (front junk rest : List Instr) (pending : List String)
    (plain : k.annotated = false) (code : k.code = front ++ junk ++ rest) :
    ∃ tail notes,
      (compact keep rest.length (front.length + junk.length) front.length pending).run k =
        .ok ((front ++ rest.filter keep).length, notes)
          { k with code := front ++ rest.filter keep ++ tail } := by
  induction rest generalizing front junk pending k with
  | nil =>
    refine ⟨junk, pending, ?_⟩
    rw [List.append_nil] at code
    rw [List.filter_nil, List.append_nil, ← code]
    rfl
  | cons p rest ih =>
    cases isKept : keep p with
    | false =>
      have next : k.code = front ++ (junk ++ [p]) ++ rest := by simp [code]
      obtain ⟨tail, notes, run⟩ := ih front (junk ++ [p]) (pending ++ p.notes) plain next
      refine ⟨tail, notes, ?_⟩
      rw [List.length_cons, compact_drop code isKept, List.filter_cons_of_neg (by simp [isKept]),
        ← run, List.length_append, List.length_singleton, Nat.add_assoc]
    | true =>
      obtain ⟨junk', length, moved⟩ := compact_keep code isKept rest.length pending
      have size : (front ++ [p]).length = front.length + 1 := List.length_append
      have place : front.length + junk.length + 1 = front.length + 1 + junk'.length := by omega
      have same : front ++ p :: rest.filter keep = front ++ [p] ++ rest.filter keep := by simp
      obtain ⟨tail, notes, run⟩ := ih (k := { k with code := front ++ [p] ++ junk' ++ rest })
        (front ++ [p]) junk' pending plain rfl
      refine ⟨tail, notes, ?_⟩
      rw [List.length_cons, moved, if_neg (by simp [plain]), place, List.filter_cons_of_pos isKept,
        same]
      rwa [size] at run

/-- Where changes leave notes, they come to stand one after the other, and the legacies of those
dropped have been handed on, but for the one that nothing follows. -/
theorem compact_annotated (keep : Instr → Bool) (front junk rest : List Instr)
    (last : Option Nat) (pending : List String) (annotated : k.annotated = true)
    (code : k.code = front ++ junk ++ rest) (isLast : last = front.getLast?.map Instr.id) :
    ∃ kept tail notes,
      (compact keep rest.length (front.length + junk.length) front.length pending).run k =
        .ok (kept.length, notes) { k with code := kept ++ tail } ∧
      (Steady keep rest →
        Edit.handOn (Edit.legacies keep last pending rest) (front ++ rest.filter keep) =
          Edit.handOn (Edit.legacies keep (kept.getLast?.map Instr.id) notes []) kept) := by
  induction size : rest.length generalizing front junk rest last pending k with
  | zero =>
    cases List.length_eq_zero_iff.1 size
    refine ⟨front, junk, pending, ?_, fun _ => ?_⟩
    · rw [List.append_nil] at code
      rw [← code]
      rfl
    · rw [List.filter_nil, List.append_nil, isLast]
  | succ left ih =>
    obtain ⟨p, rest, rfl⟩ := List.exists_cons_of_length_eq_add_one size
    have size : rest.length = left := Nat.succ.inj size
    cases isKept : keep p with
    | false =>
      have next : k.code = front ++ (junk ++ [p]) ++ rest := by simp [code]
      obtain ⟨kept, tail, notes, run, same⟩ :=
        ih front (junk ++ [p]) rest last (pending ++ p.notes) annotated next isLast size
      refine ⟨kept, tail, notes, ?_, fun steady => ?_⟩
      · rw [compact_drop code isKept, ← run, List.length_append, List.length_singleton,
          Nat.add_assoc]
      · rw [Edit.legacies_of_dropped isKept, List.filter_cons_of_neg (by simp [isKept]),
          same (List.pairwise_cons.1 steady).2]
    | true =>
      obtain ⟨junk', length, moved⟩ := compact_keep code isKept left pending
      have ahead : front ++ p :: rest.filter keep = front ++ [p] ++ rest.filter keep := by simp
      have size' : (Edit.update (front ++ [p]) p.id (·.annotate pending)).length =
          front.length + 1 := by rw [Edit.length_update, List.length_append, List.length_singleton]
      have place : front.length + junk.length + 1 =
          front.length + 1 + (Edit.update junk' p.id (·.annotate pending)).length := by
        rw [Edit.length_update]
        omega
      have isLast' : some p.id =
          (Edit.update (front ++ [p]) p.id (·.annotate pending)).getLast?.map Instr.id := by
        simp [Edit.update]
      have parts : Edit.update (front ++ [p] ++ junk' ++ rest) p.id (·.annotate pending) =
          Edit.update (front ++ [p]) p.id (·.annotate pending) ++
            Edit.update junk' p.id (·.annotate pending) ++
            Edit.update rest p.id (·.annotate pending) := by
        rw [Edit.update_append, Edit.update_append]
      -- What comes behind is noted on too, where the instruction stands again.
      obtain ⟨kept, tail, notes, run, same⟩ := ih
        (k := { k with
          code := Edit.update (front ++ [p] ++ junk' ++ rest) p.id (·.annotate pending) })
        _ _ _ (some p.id) [] annotated parts isLast' ((Edit.length_update ..).trans size)
      refine ⟨kept, tail, notes, ?_, fun steady => ?_⟩
      · rw [moved, if_pos annotated, place]
        rwa [size'] at run
      · obtain ⟨again, later⟩ := List.pairwise_cons.1 steady
        have again := fun q member => again q member isKept
        rw [← same (steady_update later again pending), legacies_update again, filter_update again,
          ← Edit.update_append, ← ahead, Edit.legacies_of_kept isKept,
          List.filter_cons_of_pos isKept]
        rfl

/-- The last legacy is handed on. -/
theorem bequeathLast_run (keep : Instr → Bool) (kept tail : List Instr) (notes : List String)
    (annotated : k.annotated = true) (code : k.code = kept ++ tail) :
    ∃ tail', (bequeathLast kept.length notes).run k = .ok () { k with
      code := Edit.handOn (Edit.legacies keep (kept.getLast?.map Instr.id) notes []) kept ++
        tail' } := by
  unfold bequeathLast
  rw [get_bind]
  rcases List.eq_nil_or_concat kept with rfl | ⟨front, p, rfl⟩
  · refine ⟨tail, ?_⟩
    rw [if_neg (by simp)]
    exact congrArg _ (congrArg (fun code => { k with code }) code)
  · rw [List.concat_eq_append] at code ⊢
    have last : (front ++ [p]).getLast?.map Instr.id = some p.id := by simp
    have here : k.code[(front ++ [p]).length - 1]? = some p := by
      rw [code]
      simp
    have place : ((front ++ [p]).length : Int) - 1 = ((front ++ [p]).length - 1 : Nat) := by
      rw [List.length_append, List.length_singleton]
      omega
    have gives : Edit.handOn (Edit.legacies keep (some p.id) notes []) (front ++ [p]) =
        Edit.update (front ++ [p]) p.id (·.annotate notes) := rfl
    rw [last, gives]
    by_cases silent : notes = []
    · refine ⟨tail, ?_⟩
      rw [if_neg (by simp [silent]), silent, Edit.update_annotate_nil]
      exact congrArg _ (congrArg (fun code => { k with code }) code)
    · refine ⟨Edit.update tail p.id (·.annotate notes), ?_⟩
      rw [if_pos ⟨annotated, silent, by simp⟩, place, bind_ok (look_run here), annotate_run, code,
        Edit.update_append]

/-- What is kept stands in front in the end, with all notes handed on. -/
theorem compact_run (keep : Instr → Bool) (k : Cursor) : ∃ kept notes code sifted tail,
    (compact keep k.code.length 0 0 []).run k = .ok (kept, notes) { k with code } ∧
      (bequeathLast kept notes).run { k with code } = .ok () { k with code := sifted ++ tail } ∧
      sifted.length = kept ∧
      ((k.annotated = true → Steady keep k.code) → sifted = Edit.sift k.annotated keep k.code) := by
  have start : k.code = [] ++ [] ++ k.code := rfl
  cases annotated : k.annotated with
  | true =>
    obtain ⟨kept, tail, notes, run, same⟩ :=
      compact_annotated keep [] [] k.code none [] annotated start rfl
    obtain ⟨tail', last⟩ := bequeathLast_run
      (k := { k with code := kept ++ tail }) keep kept tail notes annotated rfl
    rw [annotated] at run last
    exact ⟨kept.length, notes, kept ++ tail, _, tail', run, last, Edit.length_handOn ..,
      fun steady => (same (steady rfl)).symm⟩
  | false =>
    obtain ⟨tail, notes, run⟩ := compact_plain keep [] [] k.code [] annotated start
    rw [annotated] at run
    refine ⟨_, notes, _, _, tail, run, ?_, rfl, fun _ => rfl⟩
    unfold bequeathLast
    rw [get_bind, if_neg (by simp)]
    rfl

/-- Work in place does not break down. It keeps the instructions that are accepted, and hands on the
notes of the others. -/
theorem filter_run (keep : Instr → Bool) (k : Cursor) : ∃ next,
    (filter keep).run k = .ok () next ∧
      ((k.annotated = true → Steady keep k.code) → next = k.filter keep) := by
  obtain ⟨kept, notes, code, sifted, tail, run, last, size, same⟩ := compact_run keep k
  refine ⟨{ k with code := sifted, pos := 0, fresh := false }, ?_, fun steady => ?_⟩
  · have front : (sifted ++ tail).take kept = sifted := List.take_left' size
    unfold filter
    rw [get_bind, bind_ok run]
    dsimp only
    rw [bind_ok last, modify_bind, reset, modify_bind]
    dsimp only
    rw [front]
    rfl
  · rw [same steady]
    rfl

/-- Work whose result is passed on. -/
theorem run_map {α β : Type} {w : Work α} {answer : Except Fault (α × Cursor)}
    (run : w.run k = k.outcome answer) (f : α → β) :
    (w >>= fun a => pure (f a)).run k =
      k.outcome (answer.map fun (a, next) => (f a, next)) := by
  cases answer with
  | ok result => exact bind_ok run
  | error fault => exact bind_error run

end Work

namespace Cursor

/-- The work that a call is. -/
def Call.work : Call → Work (List Instr)
  | .read => do return [← Work.read]
  | .peek count => Work.peek count
  | .reset => do Work.reset; return []
  | .replace count repl note => do Work.replace count repl note; return []
  | .replaceAt start count repl note => do Work.replaceAt start count repl note; return []
  | .insert place p note => do Work.replaceAt place 0 [p] note; return []
  | .remove note => do Work.replace 1 [] note; return []
  | .filter keep => do Work.filter keep; return []

/-- The numbers of a call. -/
def Call.numbers : Call → List Int
  | .peek count => [count]
  | .replace count _ _ => [count]
  | .replaceAt start count _ _ => [start, count]
  | .insert place _ _ => [place]
  | _ => []

/-- A call that a machine can be asked for: its numbers are words, and there are not more
instructions than they can count. -/
structure Fits (k : Cursor) (c : Call) : Prop where
  words : ∀ n ∈ c.numbers, n < 2 ^ 63
  memory : k.room + k.code.length + c.repl.length < 2 ^ 63

/-- What a call keeps does not depend on the notes that it hands on. -/
def Call.Steady (k : Cursor) : Call → Prop
  | .filter keep => k.annotated = true → Work.Steady keep k.code
  | _ => True

variable {k : Cursor} {c : Call}

theorem Call.steady_of_nodup (distinct : (k.code.map Instr.id).Nodup) (c : Call) :
    c.Steady k := by
  cases c with
  | filter keep => exact fun _ => Work.steady_of_nodup distinct keep
  | read | peek | reset | replace | replaceAt | insert | remove => trivial

theorem map_map_answer {α β γ : Type} (answer : Except Fault α) (f : α → β) (g : β → γ) :
    (answer.map f).map g = answer.map fun a => g (f a) := by
  cases answer <;> rfl

/-- The work of a call comes to its answer. -/
theorem work_run (inside : k.Inside) (fits : k.Fits c) (steady : c.Steady k) :
    c.work.run k = k.outcome (k.call c) := by
  obtain ⟨words, memory⟩ := fits
  cases c with
  | read => exact Work.run_map (Work.read_run k) fun p => [p]
  | peek count =>
    have word : count < 2 ^ 63 := words count (List.mem_singleton_self count)
    exact Work.peek_run inside word (by omega)
  | reset => rfl
  | replace count repl note =>
    have word : count < 2 ^ 63 := words count (List.mem_singleton_self count)
    have run := Work.run_map (Work.replace_run inside word memory note) fun _ => ([] : List Instr)
    rwa [map_map_answer] at run
  | replaceAt start count repl note =>
    obtain ⟨word, words⟩ := List.forall_mem_cons.1 words
    have word' : count < 2 ^ 63 := words count (List.mem_singleton_self count)
    have run := Work.run_map (Work.replaceAt_run inside word word' memory note)
      fun _ => ([] : List Instr)
    rwa [map_map_answer] at run
  | insert place p note =>
    have word : place < 2 ^ 63 := words place (List.mem_singleton_self place)
    have word' : (0 : Int) < 2 ^ 63 := by decide
    have run := Work.run_map (Work.replaceAt_run inside word word' memory note)
      fun _ => ([] : List Instr)
    rwa [map_map_answer] at run
  | remove note =>
    have word : (1 : Int) < 2 ^ 63 := by decide
    have run := Work.run_map (Work.replace_run inside word memory note) fun _ => ([] : List Instr)
    rwa [map_map_answer] at run
  | filter keep =>
    obtain ⟨next, run, same⟩ := Work.filter_run keep k
    rw [same steady] at run
    exact Work.bind_ok run

/-- Work that breaks down has assigned nothing. -/
theorem eq_of_work_error {breakdown : Breakdown} {k' : Cursor} (inside : k.Inside)
    (fits : k.Fits c) (breaks : c.work.run k = .error breakdown k') : k' = k := by
  have refused (steady : c.Steady k) : k' = k := by
    rw [work_run inside fits steady] at breaks
    cases answer : k.call c with
    | ok result =>
      rw [answer] at breaks
      contradiction
    | error fault =>
      rw [answer] at breaks
      exact (EStateM.Result.error.inj breaks).2.symm
  cases c with
  | filter keep =>
    obtain ⟨next, run, -⟩ := Work.filter_run keep k
    have done : (Call.filter keep).work.run k = .ok [] next := Work.bind_ok run
    rw [done] at breaks
    contradiction
  | read | peek | reset | replace | replaceAt | insert | remove => exact refused trivial

/-- Cursors edit faithfully, and safely. After any calls on a new cursor, the cursor is inside its
code. A call that exchanges a window, if it is accepted, leaves what was before the window, then the
replacement, then what was behind the window, with notes added if changes leave notes, and the
cursor stands right behind the replacement. Dropping instructions leaves exactly those that are
accepted, in order. Calls that begin with the instruction just read succeed if and only if the last
call that moved the cursor was a read, and the window that begins there is inside the code. And
whatever is called next: carried out assignment by assignment on a machine that has room for it, it
comes to its answer, and if it is refused, nothing has been assigned. -/
theorem calls_exact (code : List Instr) (annotated : Bool) (calls : List Call) :
    let new := ofCode code annotated
    let k := new.run calls
    k.pos ≤ k.code.length ∧
      (∀ c found k' place count, k.call c = .ok (found, k') → c.window k = some (place, count) →
        ∃ before window after, k.code = before ++ window ++ after ∧ place = before.length ∧
          count = window.length ∧ Edit.Annotates (before ++ c.repl ++ after) k'.code ∧
          (annotated = false → k'.code = before ++ c.repl ++ after) ∧
          k'.pos = (before ++ c.repl).length) ∧
      (∀ keep, Edit.Annotates (k.code.filter keep) (k.filter keep).code ∧
        (annotated = false → (k.filter keep).code = k.code.filter keep) ∧
        (k.filter keep).pos = 0) ∧
      (∀ count repl note, (∃ k', k.replace count repl note = .ok k') ↔
        ∃ place, LastRead new calls place ∧ 0 ≤ count ∧ place + count ≤ k.code.length) ∧
      (∀ note, (∃ k', k.remove note = .ok k') ↔ ∃ place, LastRead new calls place) ∧
      ∀ c, k.Fits c →
        (∀ breakdown k', c.work.run k = .error breakdown k' → k' = k) ∧
        (c.Steady k → c.work.run k = k.outcome (k.call c)) := by
  intro new k
  have inside : k.Inside := run_inside (inside_ofCode code annotated) calls
  have isAnnotated : k.annotated = annotated := run_annotated new calls
  refine ⟨inside.pos, fun c found k' place count accepted isWindow => ?_, fun keep => ?_,
    fun count repl note => replace_succeeds_iff rfl calls,
    fun note => remove_succeeds_iff rfl calls,
    fun c fits => ⟨fun _ _ => eq_of_work_error inside fits, work_run inside fits⟩⟩
  · rw [← isAnnotated]
    exact (accepted_of_ok accepted).exchanges isWindow
  · refine ⟨Edit.sift_annotates .., fun plain => ?_, rfl⟩
    rw [Cursor.filter, isAnnotated, plain]
    rfl

/-- The first of three copies has been read, and two of the calls before were refused. It can be
made one with the second; dropping it in place hands on its note; and a window whose end is beyond
the words breaks down with nothing assigned. -/
theorem calls_exact_fused :
    let copy (id : Nat) (dst src : Fin 32) (notes : List String) : Instr :=
      { Instr.ofCommand id (.copy (.general dst) (.general src)) with notes }
    let new := ofCode [copy 1 2 3 ["seen"], copy 2 4 5 [], copy 3 6 7 []] true
    let calls : List Call := [.read, .peek 5, .replaceAt 2 7 [] "", .replace (-1) [] ""]
    let k := new.run calls
    let fused : Call := .replace 2 [copy 9 4 3 []] "fused"
    let unnoted : Call := .filter fun p => p.notes.isEmpty
    let beyond : Call := .replaceAt 1 (2 ^ 63 - 1) [] ""
    k.pos ≤ k.code.length ∧
      (∃ k', k.call fused = .ok ([], k') ∧ k'.code = [copy 9 4 3 ["seen", "fused"], copy 3 6 7 []] ∧
        ∃ before window after, k.code = before ++ window ++ after ∧ (0 : Int) = before.length ∧
          (2 : Int) = window.length ∧
          Edit.Annotates (before ++ [copy 9 4 3 []] ++ after) k'.code ∧
          k'.pos = (before ++ [copy 9 4 3 []]).length) ∧
      (∃ place, LastRead new calls place) ∧
      unnoted.work.run k =
        .ok [] { k with code := [copy 2 4 5 ["seen"], copy 3 6 7 []], pos := 0, fresh := false } ∧
      beyond.work.run k = .error (.fault (.wrapped (-2 ^ 63))) k := by
  intro copy new calls k fused unnoted beyond
  obtain ⟨pos, edits, -, -, removes, works⟩ := calls_exact
    [copy 1 2 3 ["seen"], copy 2 4 5 [], copy 3 6 7 []] true calls
  have isFused : k.call fused = .ok ([], {
      code := [copy 9 4 3 ["seen", "fused"], copy 3 6 7 []]
      annotated := true
      room := 2
      pos := 1 }) := by decide +kernel
  have dropped : k.call unnoted = .ok ([], { k with
      code := [copy 2 4 5 ["seen"], copy 3 6 7 []]
      pos := 0
      fresh := false }) := by decide +kernel
  have refused : k.call beyond = .error (.wrapped (-2 ^ 63)) := by decide +kernel
  have isRemoved : k.remove "" = .ok {
      code := [copy 2 4 5 ["seen"], copy 3 6 7 []]
      annotated := true
      room := 2
      pos := 0 } := by decide +kernel
  have distinct : (k.code.map Instr.id).Nodup := by decide +kernel
  have fits : k.Fits beyond := ⟨by decide +kernel, by decide +kernel⟩
  have fits' : k.Fits unnoted := ⟨nofun, by decide +kernel⟩
  obtain ⟨before, window, after, parts, place, count, exchanged, -, behind⟩ :=
    edits fused [] _ 0 2 isFused (by decide +kernel)
  refine ⟨pos, ⟨_, isFused, rfl, before, window, after, parts, place, count, exchanged, behind⟩,
    (removes "").1 ⟨_, isRemoved⟩, ?_, ?_⟩
  · rw [(works unnoted fits').2 (Call.steady_of_nodup distinct unnoted), dropped]
    rfl
  · rw [(works beyond fits).2 trivial, refused]
    rfl

end Cursor

end MipsFlow
