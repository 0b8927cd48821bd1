import MipsFlow.Source.Line
import MipsFlow.Proofs.Tokens

/-!
# Legible instructions

An instruction is *legible* if its words are of the kinds that they are written as, its operands are
read back from their texts, and its comment is on one line with it. Legible instructions are those
that writing does not garble. Whatever is read from a line is legible: each part of the line is put
together from tokens that have texts of the right kinds (`Line.proper_of_ofTokens`), and so is each
instruction (`legible_of_items`).
-/

namespace MipsFlow

/-! ## Legible instructions -/

/-- The mnemonic is read back from its word. -/
structure Mnemonic.Legible (m : Mnemonic) : Prop where
  word : Source.IsMnemonic m.name.toList
  same : Mnemonic.ofName m.name = m

/-- The mnemonic and the operands are read back from their texts. -/
structure Command.Legible (c : Command) : Prop where
  mnemonic : c.mnemonic.Legible
  args : ∀ o ∈ c.args, o.Legible

/-- The words of the instruction are of the kinds that they are written as. -/
def Content.Legible : Content → Prop
  | .label name => Source.IsLabelName name.toList
  | .directive text => Source.IsDirective text.toList ∧ Text.Trimmed text.toList
  | .comment text _ => '\n' ∉ text.toList
  | .command c => c.Legible

namespace Source

/-- The instruction and the comment on its line are written in a way that can be read. Comments that
stand alone have no further one. -/
structure Legible (item : Content × String) : Prop where
  content : item.1.Legible
  comment : '\n' ∉ item.2.toList
  alone : ∀ text indented, item.1 = .comment text indented → item.2 = ""

end Source

/-! ### Mnemonics -/

/-- The word has the shape of a mnemonic. -/
def Source.shapesMnemonic : List Char → Bool
  | c :: rest => Source.isLetter c && rest.all Source.isMnemonicChar
  | [] => false

theorem Source.isMnemonic_of_shapes {cs : List Char} (shapes : shapesMnemonic cs = true) :
    IsMnemonic cs := by
  cases cs with
  | nil => contradiction
  | cons c rest =>
    obtain ⟨letter, chars⟩ := Bool.and_eq_true_iff.1 shapes
    exact ⟨c, rest, rfl, letter, List.all_eq_true.1 chars⟩

theorem Opcode.mem_all (op : Opcode) : op ∈ all := by
  cases op <;> decide +kernel

theorem Opcode.ofName?_name (op : Opcode) : ofName? op.name = some op := by
  have each : ∀ op ∈ all, ofName? op.name = some op := by decide +kernel
  exact each op op.mem_all

theorem Opcode.isMnemonic_name (op : Opcode) : Source.IsMnemonic op.name.toList := by
  have each : ∀ op ∈ all, Source.shapesMnemonic op.name.toList = true := by decide +kernel
  exact Source.isMnemonic_of_shapes (each op op.mem_all)

/-- Known mnemonics are legible, and so are unknown ones that have the shape of a mnemonic. -/
theorem Mnemonic.legible_of_unknown {m : Mnemonic}
    (unknown : ∀ name, m = .unknown name →
      Opcode.ofName? name = none ∧ Source.IsMnemonic name.toList) : m.Legible := by
  cases m with
  | known op => exact ⟨op.isMnemonic_name, by simp [name, ofName, op.ofName?_name]⟩
  | unknown word =>
    obtain ⟨isUnknown, isWord⟩ := unknown word rfl
    exact ⟨isWord, by simp [name, ofName, isUnknown]⟩

/-- Words that have the shape of a mnemonic are read as legible ones. -/
theorem Mnemonic.legible_ofName {s : String} (word : Source.IsMnemonic s.toList) :
    (ofName s).Legible := by
  refine legible_of_unknown fun name isUnknown => ?_
  unfold ofName at isUnknown
  split at isUnknown
  · contradiction
  · next unread =>
    cases isUnknown
    exact ⟨unread, word⟩

/-! ## Sequences of results -/

section

variable {ε α β : Type} {f : α → Except ε β}

theorem mapM_ok {g : α → β} {xs : List α} (each : ∀ x ∈ xs, f x = .ok (g x)) :
    xs.mapM f = .ok (xs.map g) := by
  induction xs with
  | nil => rfl
  | cons x xs ih =>
    obtain ⟨here, rest⟩ := List.forall_mem_cons.1 each
    rw [List.mapM_cons, here, ih rest]
    rfl

/-- Every result of a sequence comes from one of its elements. -/
theorem exists_of_mapM {xs : List α} {ys : List β} (all : xs.mapM f = .ok ys) :
    ∀ y ∈ ys, ∃ x ∈ xs, f x = .ok y := by
  induction xs generalizing ys with
  | nil =>
    cases all
    exact fun y member => absurd member List.not_mem_nil
  | cons x xs ih =>
    simp only [List.mapM_cons, bind, Except.bind, pure, Except.pure] at all
    split at all
    · contradiction
    · next y here =>
      split at all
      · contradiction
      · next rest further =>
        cases all
        refine List.forall_mem_cons.2 ⟨⟨x, List.mem_cons_self, here⟩, fun z member => ?_⟩
        exact (ih further z member).imp fun x found => ⟨List.mem_cons_of_mem _ found.1, found.2⟩

end

namespace Source

variable {line left rest tokens : List Token} {items : List (Content × String)}

/-! ## Cutting at line breaks -/

theorem splitLines_append {nl : Token} (oneLine : ∀ t ∈ line, t.kind ≠ .newline)
    (isBreak : nl.kind = .newline) :
    splitLines (line ++ nl :: tokens) = line :: splitLines tokens := by
  induction line with
  | nil => simp [splitLines, isBreak]
  | cons t line ih =>
    obtain ⟨here, rest⟩ := List.forall_mem_cons.1 oneLine
    rw [List.cons_append, splitLines, if_neg here, ih rest]

/-! ## What is read is legible -/

/-- The tokens have texts of their kinds. -/
def Proper (line : List Token) : Prop := ∀ t ∈ line, IsToken t.kind t.text

theorem Proper.sublist (proper : Proper line) (sublist : left.Sublist line) : Proper left :=
  fun t member => proper t (sublist.subset member)

theorem moreOperands_spec {operands : List String} (proper : Proper line)
    (read : moreOperands line = (operands, left)) : left.Sublist line ∧
      ∀ s ∈ operands, ∀ c ∈ s.toList, continuesOperand c = true := by
  fun_induction moreOperands line generalizing operands left with
  | case1 comma operand rest kinds further left' isFurther ih =>
    cases read
    obtain ⟨_, isOperand, properRest⟩ : IsToken comma.kind comma.text ∧
        IsToken operand.kind operand.text ∧ Proper rest := by
      simpa [Proper] using proper
    obtain ⟨sublist, texts⟩ := ih properRest isFurther
    rw [kinds.2] at isOperand
    refine ⟨(sublist.cons _).cons _, List.forall_mem_cons.2 ⟨fun c member => ?_, texts⟩⟩
    rw [String.toList_ofList] at member
    exact isOperand.2 c member
  | case2 => cases read; exact ⟨.refl _, by simp⟩
  | case3 => cases read; exact ⟨.refl _, by simp⟩

theorem firstOperands_spec {operands : List String} (proper : Proper line)
    (read : firstOperands line = (operands, left)) : left.Sublist line ∧
      ∀ s ∈ operands, ∀ c ∈ s.toList, continuesOperand c = true := by
  unfold firstOperands at read
  split at read
  · next t rest =>
    split at read
    · next isOperand =>
      cases read
      obtain ⟨operand, properRest⟩ := List.forall_mem_cons.1 proper
      obtain ⟨sublist, texts⟩ := moreOperands_spec properRest rfl
      rw [isOperand] at operand
      refine ⟨sublist.cons _, List.forall_mem_cons.2 ⟨fun c member => ?_, texts⟩⟩
      rw [String.toList_ofList] at member
      exact operand.2 c member
    · cases read
      exact ⟨.refl _, by simp⟩
  · cases read
    exact ⟨.refl _, by simp⟩

/-- The statement is put together from texts of the right kinds. -/
def Statement.Proper : Statement → Prop
  | .directive text => IsDirective text.toList ∧ Text.Trimmed text.toList
  | .command c => IsMnemonic c.mnemonic.toList ∧
    ∀ s ∈ c.operands, ∀ d ∈ s.toList, continuesOperand d = true

theorem IsDirective.trim {cs : List Char} (directive : IsDirective cs) :
    IsDirective (Text.trimChars cs) := by
  obtain ⟨c, rest, rfl, -⟩ := directive.shape
  have head : ∀ d ∈ ('.' :: c :: rest).head?, Text.isBlank d = false := by
    rintro d ⟨⟩
    decide
  obtain ⟨blanks, isBlank, whole⟩ := Text.exists_append_of_head head
  rw [whole] at directive
  exact directive.of_append_blanks isBlank

theorem readStatement_spec {statement : Option Statement} (proper : Proper line)
    (read : readStatement line = (statement, left)) : left.Sublist line ∧
      ∀ s ∈ statement, s.Proper := by
  unfold readStatement at read
  split at read
  · next t rest =>
    obtain ⟨isToken, properRest⟩ := List.forall_mem_cons.1 proper
    split at read
    · next isDirective =>
      cases read
      rw [isDirective] at isToken
      refine ⟨List.sublist_cons_self _ _, ?_⟩
      rintro s ⟨⟩
      simp only [Statement.Proper, Text.trim, String.toList_ofList]
      exact ⟨isToken.trim, Text.trimmed_trimChars _⟩
    · next isMnemonic =>
      cases read
      rw [isMnemonic] at isToken
      obtain ⟨sublist, texts⟩ := firstOperands_spec properRest rfl
      refine ⟨sublist.cons _, ?_⟩
      rintro s ⟨⟩
      exact ⟨by rwa [String.toList_ofList], texts⟩
    · cases read
      exact ⟨.refl _, by simp⟩
  · cases read
    exact ⟨.refl _, by simp⟩

theorem trailingComment_spec {comment : Option String} (proper : Proper line)
    (read : trailingComment line = (comment, left)) : ∀ s ∈ comment, '\n' ∉ s.toList := by
  unfold trailingComment at read
  split at read
  · next t rest =>
    split at read
    · next isComment =>
      cases read
      have isToken := proper t List.mem_cons_self
      rw [isComment] at isToken
      obtain ⟨text, whole, noBreak⟩ := isToken
      rintro s ⟨⟩
      simpa [commentText, whole] using noBreak
    · cases read
      simp
  · cases read
    simp

/-- The line is put together from texts of the right kinds. -/
structure Line.Proper (l : Line) : Prop where
  labels : ∀ name ∈ l.labels, IsLabelName name.toList
  statement : ∀ s ∈ l.statement, s.Proper
  comment : ∀ s ∈ l.comment, '\n' ∉ s.toList

theorem Line.proper_of_ofTokens {l : Line} (proper : Source.Proper line)
    (read : Line.ofTokens line = .ok l) : l.Proper := by
  have behind : Source.Proper (line.dropWhile (·.kind = .label)) :=
    proper.sublist (List.dropWhile_sublist _)
  obtain ⟨sublist, statement⟩ := readStatement_spec behind rfl
  have comment := trailingComment_spec (behind.sublist sublist) rfl
  unfold Line.ofTokens at read
  simp only at read
  split at read
  · contradiction
  · cases read
    refine ⟨fun name member => ?_, statement, comment⟩
    obtain ⟨t, found, rfl⟩ := List.mem_map.1 member
    have isLabel : t.kind = .label := by simpa using List.mem_takeWhile_imp found
    have isToken := proper t ((List.takeWhile_sublist _).subset found)
    rw [isLabel] at isToken
    obtain ⟨name, whole, isName⟩ := isToken
    simpa [labelText, whole] using isName

/-- Commands that are read are legible. -/
theorem legible_of_read {c : CommandText} {command : Command}
    (proper : (Statement.command c).Proper) (read : c.read = .ok command) : command.Legible := by
  obtain ⟨mnemonic, operands⟩ := proper
  unfold CommandText.read at read
  simp only [bind, Except.bind, pure, Except.pure] at read
  split at read
  · contradiction
  · next args isArgs =>
    cases read
    refine ⟨Mnemonic.legible_ofName mnemonic, fun o member => ?_⟩
    obtain ⟨s, isOperand, isRead⟩ := exists_of_mapM isArgs o member
    have chars : (Text.trim s).toList = Text.trimChars s.toList := String.toList_ofList
    refine Operand.legible_of_ofText ⟨fun isEmpty => ?_, ?_, fun c inside => ?_⟩ isRead
    · simp [Operand.ofText, isEmpty] at isRead
    · exact chars ▸ Text.trimmed_trimChars _
    · exact operands s isOperand c (Text.subset_trimChars _ (chars ▸ inside))

theorem legible_of_statement {s : Statement} {content : Content} (proper : s.Proper)
    (read : s.read = .ok content) : content.Legible := by
  unfold Statement.read at read
  split at read
  · cases read
    exact proper
  · split at read
    · next command isRead =>
      cases read
      exact legible_of_read proper isRead
    · contradiction

theorem legible_commentLast {comment : String} (noBreak : '\n' ∉ comment.toList)
    (legible : ∀ item ∈ items, Legible item)
    (notAlone : ∀ item ∈ items, ∀ text indented, item.1 ≠ .comment text indented) :
    ∀ item ∈ commentLast comment items, Legible item := by
  fun_induction commentLast comment items with
  | case1 => exact legible
  | case2 content remark =>
    refine List.forall_mem_singleton.2 ⟨(legible _ List.mem_cons_self).content, noBreak, ?_⟩
    intro text indented isComment
    exact absurd isComment (notAlone _ List.mem_cons_self text indented)
  | case3 item rest _ ih =>
    obtain ⟨here, further⟩ := List.forall_mem_cons.1 legible
    exact List.forall_mem_cons.2 ⟨here, ih further fun item member =>
      notAlone item (List.mem_cons_of_mem _ member)⟩

theorem not_comment_of_statement {s : Statement} {content : Content} (read : s.read = .ok content)
    (text : String) (indented : Bool) : content ≠ .comment text indented := by
  unfold Statement.read at read
  split at read
  · cases read
    exact Content.noConfusion
  · split at read
    · cases read
      exact Content.noConfusion
    · contradiction

/-- The instructions of a line, without its comment. -/
def Line.words (l : Line) : Except (Position × OperandError) (List (Content × String)) :=
  let labels := l.labels.map fun name => (Content.label name, "")
  match l.statement with
  | none => .ok labels
  | some s => s.read.map fun content => labels ++ [(content, "")]

/-- The instructions with the comment of the line. -/
def Line.remarked (l : Line) (items : List (Content × String)) : List (Content × String) :=
  match l.comment with
  | none => items
  | some text => if items.isEmpty then [(.comment text (!l.flush), "")] else commentLast text items

theorem Line.items_eq (l : Line) : l.items = l.words.map l.remarked := by
  obtain ⟨labels, statement, comment, flush⟩ := l
  unfold items words remarked
  cases statement with
  | none =>
    cases comment with
    | none => simp [bind, Except.bind, pure, Except.pure, Except.map]
    | some text =>
      simp only [bind, Except.bind, pure, Except.pure, Except.map, List.append_nil]
      split <;> rfl
  | some s =>
    cases read : s.read with
    | error e => simp [bind, Except.bind, Except.map, read]
    | ok content =>
      cases comment with
      | none => simp [bind, Except.bind, pure, Except.pure, Except.map, read]
      | some text =>
        simp only [bind, Except.bind, pure, Except.pure, Except.map, read]
        split <;> rfl

theorem legible_of_words {l : Line} (proper : l.Proper) (read : l.words = .ok items) :
    ∀ item ∈ items, Legible item ∧ ∀ text indented, item.1 ≠ .comment text indented := by
  have labels : ∀ item ∈ l.labels.map (fun name => (Content.label name, "")),
      Legible item ∧ ∀ text indented, item.1 ≠ .comment text indented := by
    intro item member
    obtain ⟨name, isLabel, rfl⟩ := List.mem_map.1 member
    exact ⟨⟨proper.labels name isLabel, by simp, fun _ _ => Content.noConfusion⟩,
      fun _ _ => Content.noConfusion⟩
  unfold Line.words at read
  split at read
  · cases read
    exact labels
  · next s isStatement =>
    cases isRead : s.read with
    | error e =>
      rw [isRead] at read
      contradiction
    | ok content =>
      rw [isRead] at read
      cases read
      have notComment := not_comment_of_statement isRead
      refine List.forall_mem_append.2 ⟨labels, List.forall_mem_singleton.2 ⟨⟨?_, by simp, ?_⟩,
        notComment⟩⟩
      · exact legible_of_statement (proper.statement s isStatement) isRead
      · exact fun text indented isComment => absurd isComment (notComment text indented)

/-- Whatever is read from a line is legible. -/
theorem legible_of_items {l : Line} (proper : l.Proper) (read : l.items = .ok items) :
    ∀ item ∈ items, Legible item := by
  rw [Line.items_eq] at read
  cases isWords : l.words with
  | error e =>
    rw [isWords] at read
    contradiction
  | ok words =>
    rw [isWords] at read
    cases read
    have legible := legible_of_words proper isWords
    unfold Line.remarked
    split
    · exact fun item member => (legible item member).1
    · next text isComment =>
      have noBreak := proper.comment text isComment
      split
      · exact List.forall_mem_singleton.2 ⟨noBreak, by simp, fun _ _ _ => rfl⟩
      · exact legible_commentLast noBreak (fun item member => (legible item member).1)
          fun item member => (legible item member).2

end Source

end MipsFlow
