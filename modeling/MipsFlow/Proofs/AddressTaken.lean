import MipsFlow.Proofs.Transfers

/-!
# Labels whose address is taken

Code out of sight may come to a label whose address is taken, so such a label has to start a block
that is marked as an entry. A directive takes the addresses of all labels that it names, wherever
they stand in its text. An operand is looked at in less detail: it takes the address of a label if
it is that label and nothing else: `startsEntries_iff`. So an operand that names a label in an
expression, in a relocation or as an offset from a register is missed: `startsEntries_lost`.
-/

namespace MipsFlow

namespace Graph

/-! ## Tokens -/

/-- The characters are a maximal run of symbol characters in the text. -/
structure IsRun (run text : List Char) : Prop where
  nonempty : run ≠ []
  symbols : ∀ c ∈ run, isSymbolChar c = true
  maximal : ∃ before after, text = before ++ run ++ after ∧
    (∀ c ∈ before.getLast?, isSymbolChar c = false) ∧ ∀ c ∈ after.head?, isSymbolChar c = false

/-- The name occurs as a whole token in the text. -/
def IsToken (name text : String) : Prop := IsRun name.toList text.toList

variable {run front rest : List Char} {c : Char} {name text : String}

/-- Symbol characters up to the end of the text are one run. -/
theorem isRun_of_symbols (symbols : ∀ c ∈ front, isSymbolChar c = true) :
    IsRun run front ↔ front ≠ [] ∧ run = front := by
  constructor
  · rintro ⟨nonempty, -, before, after, rfl, unlike, unlike'⟩
    have noBefore : before = [] := by
      cases isLast : before.getLast? with
      | none => exact List.getLast?_eq_none_iff.1 isLast
      | some c =>
        have symbol := symbols c (by simp [List.mem_of_getLast? isLast])
        simp [unlike c isLast] at symbol
    have noAfter : after = [] := by
      cases isHead : after.head? with
      | none => exact List.head?_eq_none_iff.1 isHead
      | some c =>
        have symbol := symbols c (by simp [List.mem_of_mem_head? isHead])
        simp [unlike' c isHead] at symbol
    simp [noBefore, noAfter, nonempty]
  · rintro ⟨nonempty, rfl⟩
    exact ⟨nonempty, symbols, [], [], by simp, by simp, by simp⟩

/-- A character of another kind ends a run, and the next one starts behind it. -/
theorem isRun_append_cons (symbols : ∀ c ∈ front, isSymbolChar c = true)
    (ends : isSymbolChar c = false) :
    IsRun run (front ++ c :: rest) ↔ (front ≠ [] ∧ run = front) ∨ IsRun run rest := by
  constructor
  · rintro ⟨nonempty, ofRun, before, after, split, unlike, unlike'⟩
    rw [List.append_assoc, eq_comm, List.append_eq_append_iff] at split
    rcases split with ⟨middle, rfl, split⟩ | ⟨middle, rfl, split⟩
    · -- what stands before the run belongs to the symbol characters, so it is empty
      have noBefore : before = [] := by
        cases isLast : before.getLast? with
        | none => exact List.getLast?_eq_none_iff.1 isLast
        | some d =>
          have symbol := symbols d (by simp [List.mem_of_getLast? isLast])
          simp [unlike d isLast] at symbol
      rw [List.append_eq_append_iff] at split
      rcases split with ⟨tail, rfl, split⟩ | ⟨tail, rfl, split⟩
      · cases tail with
        | nil => exact Or.inl (by simpa [noBefore] using nonempty)
        | cons d tail =>
          have symbol := symbols d (by simp)
          simp [unlike' d (by simp [split])] at symbol
      · cases tail with
        | nil => exact Or.inl (by simpa [noBefore] using nonempty)
        | cons d tail =>
          obtain ⟨rfl, -⟩ := List.cons.inj split
          simp [ofRun c (by simp)] at ends
    · -- the run stands behind the character that ends the first one
      cases middle with
      | nil =>
        cases run with
        | nil => contradiction
        | cons d run =>
          obtain ⟨rfl, -⟩ := List.cons.inj split
          simp [ofRun c (by simp)] at ends
      | cons d middle =>
        obtain ⟨rfl, rfl⟩ := List.cons.inj split
        refine Or.inr ⟨nonempty, ofRun, middle, after, by simp, fun d isLast => ?_, unlike'⟩
        refine unlike d ?_
        cases middle with
        | nil => simp at isLast
        | cons e middle =>
          rw [List.getLast?_append, List.getLast?_cons_cons, isLast, Option.some_or]
          rfl
  · rintro (⟨nonempty, rfl⟩ | ⟨nonempty, ofRun, before, after, rfl, unlike, unlike'⟩)
    · exact ⟨nonempty, symbols, [], c :: rest, by simp, by simp, by simpa using ends⟩
    · refine ⟨nonempty, ofRun, front ++ c :: before, after, by simp, fun d isLast => ?_, unlike'⟩
      cases before with
      | nil =>
        obtain rfl : c = d := by simpa using isLast
        exact ends
      | cons e before =>
        refine unlike d ?_
        have behind : front ++ c :: e :: before = (front ++ [c]) ++ (e :: before) := by simp
        rw [behind, List.getLast?_append_of_ne_nil _ (List.cons_ne_nil e before)] at isLast
        exact isLast

theorem eq_ofList_iff : name = String.ofList run ↔ name.toList = run := by
  constructor
  · rintro rfl
    exact String.toList_ofList
  · rintro rfl
    exact String.ofList_toList.symm

theorem mem_symbolRuns_iff (symbols : ∀ c ∈ run, isSymbolChar c = true) :
    name ∈ symbolRuns run rest ↔ IsRun name.toList (run.reverse ++ rest) := by
  induction rest generalizing run with
  | nil =>
    rw [List.append_nil, isRun_of_symbols (by simpa using symbols), symbolRuns]
    cases run with
    | nil => simp
    | cons d run => simp only [List.isEmpty_cons, Bool.false_eq_true, if_false, List.mem_singleton,
        eq_ofList_iff, ne_eq, List.reverse_eq_nil_iff, reduceCtorEq, not_false_eq_true, true_and]
  | cons c rest ih =>
    rw [symbolRuns]
    cases symbol : isSymbolChar c with
    | true =>
      rw [if_pos rfl, ih (List.forall_mem_cons.2 ⟨symbol, symbols⟩), List.reverse_cons,
        List.append_assoc, List.singleton_append]
    | false =>
      have next : name ∈ symbolRuns [] rest ↔ IsRun name.toList rest := ih (List.forall_mem_nil _)
      rw [isRun_append_cons (by simpa using symbols) symbol, ← next]
      cases run with
      | nil => simp
      | cons d run => simp only [Bool.false_eq_true, if_false, List.isEmpty_cons, List.mem_cons,
          eq_ofList_iff, ne_eq, List.reverse_eq_nil_iff, reduceCtorEq, not_false_eq_true, true_and]

/-- The symbols that a text names are its tokens. -/
theorem mem_symbolsIn_iff : name ∈ symbolsIn text ↔ IsToken name text :=
  mem_symbolRuns_iff (List.forall_mem_nil _)

/-! ## Entries -/

/-- The instruction names the label otherwise than by jumping there: in a directive, in a symbol, or
in the offset of a memory place. -/
inductive Refers (label : String) (p : Instr) : Prop
  | directive {text : String} (content : p.content = .directive text) (token : IsToken label text)
  | symbol {c : Command} {text : String} (content : p.content = .command c)
      (direct : c.target? = none) (operand : .sym text ∈ c.args) (token : IsToken label text)
  | offset {c : Command} {text : String} {base : Reg} (content : p.content = .command c)
      (direct : c.target? = none) (operand : .mem (.symbol text) base ∈ c.args)
      (token : IsToken label text)

/-- The instruction is a directive that names the label, or a command other than a direct jump with
an operand that is the label. -/
inductive RefersPlainly (label : String) (p : Instr) : Prop
  | directive {text : String} (content : p.content = .directive text) (token : IsToken label text)
  | symbol {c : Command} (content : p.content = .command c) (direct : c.target? = none)
      (operand : .sym label ∈ c.args)

/-- Every declaration of the label is the first instruction of a block that is an entry. -/
def StartsEntries (code : List Instr) (label : String) : Prop :=
  ∀ id b before p after, (build code).block? id = some b → b.code = before ++ p :: after →
    p.label? = some label → before = [] ∧ b.entry = true

variable {code : List Instr} {label : String}

theorem mem_addressTaken_iff {labels : List String} {p : Instr} (declares : label ∈ labels) :
    label ∈ addressTaken labels p ↔ RefersPlainly label p := by
  have symbols {args : List Operand} : label ∈ args.filterMap symbolOf? ↔ .sym label ∈ args := by
    rw [List.mem_filterMap]
    constructor
    · rintro ⟨operand, member, isSymbol⟩
      cases operand <;> simp [symbolOf?] at isSymbol
      exact isSymbol ▸ member
    · intro member
      exact ⟨_, member, rfl⟩
  unfold addressTaken
  constructor
  · intro taken
    split at taken
    · next text content =>
      exact .directive content (mem_symbolsIn_iff.1 (List.mem_filter.1 taken).1)
    · next c content =>
      split at taken
      · simp at taken
      · next direct =>
        exact .symbol content (by simpa using direct) (symbols.1 (List.mem_filter.1 taken).1)
    · simp at taken
    · simp at taken
  · intro refers
    have listed := List.contains_iff_mem.2 declares
    cases refers with
    | directive content token =>
      rw [content]
      exact List.mem_filter.2 ⟨mem_symbolsIn_iff.2 token, listed⟩
    | symbol content direct operand =>
      simp only [content, direct, Option.isSome_none, Bool.false_eq_true, if_false]
      exact List.mem_filter.2 ⟨symbols.2 operand, listed⟩

theorem mem_entryLabels_iff (declares : label ∈ declared code) :
    label ∈ entryLabels code ↔ ∃ p ∈ code, RefersPlainly label p := by
  rw [entryLabels, List.mem_flatMap]
  exact exists_congr fun p => and_congr_right fun _ => mem_addressTaken_iff declares

/-- Every declaration of a label starts a block that is an entry if a directive names the label, or
a command other than a direct jump has it as an operand, and only then. -/
theorem startsEntries_iff (code : List Instr) {label : String} (declares : label ∈ declared code) :
    StartsEntries code label ↔ ∃ p ∈ code, RefersPlainly label p := by
  rw [← mem_entryLabels_iff declares]
  constructor
  · intro starts
    rw [← flatten_build code] at declares
    obtain ⟨p, inside, isLabel⟩ := List.mem_filterMap.1 declares
    obtain ⟨id, b, here, inBlock⟩ := exists_block_of_mem_flatten inside
    obtain ⟨before, after, split⟩ := List.append_of_mem inBlock
    obtain ⟨rfl, entry⟩ := starts id b before p after here split isLabel
    have leads : b.label? = some label := by
      rw [Block.label?, split]
      exact isLabel
    rw [entry_build here, leads] at entry
    exact List.contains_iff_mem.1 entry
  · intro taken id b before p after here split isLabel
    have first := eq_nil_of_declares here (List.mem_append_right _ taken) split isLabel
    have leads : b.label? = some label := by
      rw [Block.label?, split, first]
      exact isLabel
    refine ⟨first, ?_⟩
    rw [entry_build here, leads]
    exact List.contains_iff_mem.2 taken

/-- A distance between two labels, in a directive behind the code, takes the addresses of both. -/
theorem startsEntries_iff_distance :
    let code : List Instr := [.ofCommand 1 (.copy (.general 2) (.general 4)),
      ⟨2, .label "L", "", []⟩, .ofCommand 3 (.copy (.general 3) (.general 5)),
      ⟨4, .label "$L.1", "", []⟩, .ofCommand 5 (.ofOpcode .jr [.reg Reg.link]),
      ⟨6, .directive ".word ($L.1-L)/4", "", []⟩]
    (StartsEntries code "L" ∧ StartsEntries code "$L.1") ∧
      (build code).blocks.map (fun b => (b.code.length, b.entry)) =
        [(1, false), (2, true), (2, true), (1, false)] := by
  intro code
  have names (label : String) (listed : label ∈ symbolsIn ".word ($L.1-L)/4") :
      ∃ p ∈ code, RefersPlainly label p :=
    ⟨_, List.mem_of_getElem? (i := 5) rfl, .directive rfl (mem_symbolsIn_iff.1 listed)⟩
  refine ⟨⟨?_, ?_⟩, by decide +kernel⟩
  · exact (startsEntries_iff code (by decide)).2 (names "L" (by decide +kernel))
  · exact (startsEntries_iff code (by decide)).2 (names "$L.1" (by decide +kernel))

/-- A relocation, a sum and a memory place each name the label, but the label starts no block. -/
theorem startsEntries_lost :
    let code (op : Opcode) (operand : Operand) : List Instr :=
      [.ofCommand 1 (.ofOpcode op [.reg (.general 2), operand]),
        .ofCommand 2 (.copy (.general 4) (.general 2)), ⟨3, .label "L", "", []⟩,
        .ofCommand 4 (.ofOpcode .jr [.reg Reg.link])]
    ∀ form ∈ [(Opcode.lui, Operand.sym "%hi(L)"), (Opcode.la, Operand.sym "L+4"),
        (Opcode.la, Operand.mem (.symbol "L") (.general 3))],
      "L" ∈ declared (code form.1 form.2) ∧ (∃ p ∈ code form.1 form.2, Refers "L" p) ∧
        ¬ StartsEntries (code form.1 form.2) "L" := by
  intro code
  have token {text : String} (listed : "L" ∈ symbolsIn text) : IsToken "L" text :=
    mem_symbolsIn_iff.1 listed
  have lost {op : Opcode} {operand : Operand}
      (here : (build (code op operand)).block? 0 = some { id := 0, code := code op operand }) :
      ¬ StartsEntries (code op operand) "L" := by
    intro starts
    have first := (starts 0 _ ((code op operand).take 2) _ _ here rfl rfl).1
    simp [code] at first
  simp only [List.forall_mem_cons, List.not_mem_nil, false_imp_iff, implies_true, and_true]
  refine ⟨⟨by decide, ⟨_, List.mem_cons_self .., ?_⟩, lost (by decide +kernel)⟩,
    ⟨by decide, ⟨_, List.mem_cons_self .., ?_⟩, lost (by decide +kernel)⟩,
    ⟨by decide, ⟨_, List.mem_cons_self .., ?_⟩, lost (by decide +kernel)⟩⟩
  · exact .symbol rfl (by decide) (List.mem_of_getElem? (i := 1) rfl) (token (by decide +kernel))
  · exact .symbol rfl (by decide) (List.mem_of_getElem? (i := 1) rfl) (token (by decide +kernel))
  · exact .offset rfl (by decide) (List.mem_of_getElem? (i := 1) rfl) (token (by decide +kernel))

end Graph

end MipsFlow
