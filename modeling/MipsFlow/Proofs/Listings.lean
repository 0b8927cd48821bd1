import MipsFlow.Program
import MipsFlow.Proofs.Lines

/-!
# Listings read back

A listing of legible instructions is a source, and reading it gives the same instructions: their
contents and comments agree one by one (`Program.read_text`). Reading gives legible instructions
(`Program.legible_of_read`), so it is the inverse of writing on everything that has been read.

The proof goes through the tokens. Each instruction is written as a line that is cut into the tokens
of one line, wherever it stands, and these tokens are read as that instruction (`cuts_line`). Two
things of the layout show in the tokens: the tabs in front of a comment are cut off with the
directive or the operand before them, and trimmed off it again, and the column that a stand-alone
comment begins in says whether it was indented.
-/

namespace MipsFlow

namespace Source

variable {mode : Mode} {position : Position} {cs text rest : List Char} {comment : String}
  {line ending tokens : List Token} {content : Content}

/-! ## The end of a line -/

/-- The blanks in front of the comment of an instruction. -/
def commentGap (comment : String) : List Char := if comment = "" then [] else ['\t', '\t']

/-- The comment of an instruction, behind the blanks. -/
def commentMark (comment : String) : List Char :=
  if comment = "" then [] else '#' :: comment.toList

/-- The comment of a line, if it is not empty. -/
def remark? (comment : String) : Option String := if comment = "" then none else some comment

/-- The tokens are what is left of a line: its comment, if there is one. -/
structure EndsLine (comment : String) (ending : List Token) : Prop where
  kinds : ∀ t ∈ ending, t.kind = .comment
  read : trailingComment ending = (remark? comment, [])

/-- The tokens of one line, which are read as the item. -/
structure ReadsAs (line : List Token) (item : Content × String) : Prop where
  oneLine : ∀ t ∈ line, t.kind ≠ .newline
  read : ∃ l, Line.ofTokens line = .ok l ∧ l.items = .ok [item]

theorem toList_trailer (comment : String) :
    (Printer.trailer comment []).toList = commentGap comment ++ commentMark comment := by
  unfold Printer.trailer commentGap commentMark
  split <;> simp

theorem tabs_commentGap (comment : String) : ∀ c ∈ commentGap comment, c = '\t' := by
  unfold commentGap
  split <;> simp

theorem head_commentMark (comment : String) (rest : List Char) :
    ∀ c ∈ (commentMark comment ++ '\n' :: rest).head?, c = '\n' ∨ c = '#' := by
  unfold commentMark
  split <;> simp

/-- The comment of an instruction and the line break are cut into the end of a line. -/
theorem cuts_commentMark (noBreak : '\n' ∉ comment.toList) (mode : Mode) (position : Position)
    (further : Cuts .line ⟨position.line + 1, 1⟩ rest tokens) :
    ∃ ending nl, EndsLine comment ending ∧ nl.kind = .newline ∧
      Cuts mode position (commentMark comment ++ '\n' :: rest) (ending ++ nl :: tokens) := by
  by_cases isEmpty : comment = ""
  · refine ⟨[], ⟨.newline, ['\n'], position⟩,
      ⟨by simp, by simp [remark?, isEmpty, trailingComment]⟩, rfl, ?_⟩
    simp only [commentMark, if_pos isEmpty]
    exact .token (nextLexeme?_newline mode rest) further
  · let behind := advance position (some .comment) ('#' :: comment.toList)
    refine ⟨[⟨.comment, '#' :: comment.toList, position⟩], ⟨.newline, ['\n'], behind⟩,
      ⟨by simp, ?_⟩, rfl, ?_⟩
    · simp [trailingComment, remark?, isEmpty, commentText]
    · simp only [commentMark, if_neg isEmpty]
      exact .token (nextLexeme?_comment mode noBreak (by simp))
        (.token (nextLexeme?_newline mode rest) further)

/-- The same with the blanks in front of the comment. -/
theorem cuts_commentGap (noBreak : '\n' ∉ comment.toList) (mode : Mode) (position : Position)
    (further : Cuts .line ⟨position.line + 1, 1⟩ rest tokens) :
    ∃ ending nl, EndsLine comment ending ∧ nl.kind = .newline ∧
      Cuts mode position (commentGap comment ++ (commentMark comment ++ '\n' :: rest))
        (ending ++ nl :: tokens) := by
  by_cases isEmpty : comment = ""
  · simp only [commentGap, if_pos isEmpty]
    exact cuts_commentMark noBreak mode position further
  · obtain ⟨ending, nl, ends, isBreak, cuts⟩ := cuts_commentMark noBreak mode
      (advance position none ['\t', '\t']) further
    refine ⟨ending, nl, ends, isBreak, ?_⟩
    simp only [commentGap, if_neg isEmpty]
    refine .gap (nextLexeme?_gap mode (by simp) (by simp [isGap]) fun c isHead => ?_) cuts
    rcases head_commentMark comment rest c isHead with rfl | rfl <;> decide

/-! ## Reading the tokens of one line -/

theorem EndsLine.readStatement (ends : EndsLine comment ending) :
    readStatement ending = (none, ending) := by
  cases ending with
  | nil => rfl
  | cons t rest => simp [Source.readStatement, ends.kinds t List.mem_cons_self]

theorem ofTokens_eq_ok {statement : Option Statement}
    (read : readStatement (line.dropWhile (·.kind = .label)) = (statement, ending))
    (ends : EndsLine comment ending) : ∃ l, Line.ofTokens line = .ok l ∧
      l.labels = (line.takeWhile (·.kind = .label)).map labelText ∧
      l.statement = statement ∧ l.comment = remark? comment := by
  refine ⟨⟨_, statement, remark? comment, line.head?.all (·.position.column ≤ 1)⟩, ?_, rfl, rfl,
    rfl⟩
  unfold Line.ofTokens
  simp only [read, ends.read]

/-- The comment of a line goes to its only instruction. -/
theorem remarked_singleton {l : Line} (isComment : l.comment = remark? comment)
    (content : Content) : l.remarked [(content, "")] = [(content, comment)] := by
  unfold Line.remarked
  rw [isComment]
  unfold remark?
  split <;> simp_all [commentLast]

theorem EndsLine.oneLine (ends : EndsLine comment ending) : ∀ t ∈ ending, t.kind ≠ .newline := by
  intro t member
  rw [ends.kinds t member]
  decide

/-- A label and nothing else but a comment. -/
theorem readsAs_label {t : Token} {name : String} (isLabel : t.kind = .label)
    (text : t.text = name.toList ++ [':']) (ends : EndsLine comment ending) :
    ReadsAs (t :: ending) (.label name, comment) := by
  refine ⟨List.forall_mem_cons.2 ⟨by simp [isLabel], ends.oneLine⟩, ?_⟩
  have noLabels : ending.takeWhile (·.kind = .label) = [] ∧
      ending.dropWhile (·.kind = .label) = ending := by
    cases ending with
    | nil => simp
    | cons u rest => simp [ends.kinds u List.mem_cons_self]
  have read : readStatement ((t :: ending).dropWhile (·.kind = .label)) = (none, ending) := by
    simp [isLabel, noLabels.2, ends.readStatement]
  obtain ⟨l, isLine, labels, statement, isComment⟩ := ofTokens_eq_ok read ends
  have words : l.words = .ok [(.label name, "")] := by
    simp [Line.words, labels, statement, isLabel, noLabels.1, labelText, text]
  refine ⟨l, isLine, ?_⟩
  rw [Line.items_eq, words]
  exact congrArg Except.ok (remarked_singleton isComment _)

/-- A statement and nothing else but a comment. -/
theorem readsAs_statement {t : Token} {s : Statement} (notLabel : t.kind ≠ .label)
    (oneLine : ∀ u ∈ t :: line, u.kind ≠ .newline)
    (read : readStatement (t :: line) = (some s, ending)) (ends : EndsLine comment ending)
    (isRead : s.read = .ok content) : ReadsAs (t :: line) (content, comment) := by
  have noLabels : (t :: line).takeWhile (·.kind = .label) = [] ∧
      (t :: line).dropWhile (·.kind = .label) = t :: line := by simp [notLabel]
  have read : readStatement ((t :: line).dropWhile (·.kind = .label)) = (some s, ending) := by
    rw [noLabels.2, read]
  obtain ⟨l, isLine, labels, statement, isComment⟩ := ofTokens_eq_ok read ends
  have words : l.words = .ok [(content, "")] := by
    simp [Line.words, labels, statement, noLabels.1, isRead, Except.map]
  refine ⟨oneLine, l, isLine, ?_⟩
  rw [Line.items_eq, words]
  exact congrArg Except.ok (remarked_singleton isComment content)

/-- A comment that stands alone: it is indented if it does not begin in the first column. -/
theorem readsAs_comment {t : Token} {text : String} (isComment : t.kind = .comment)
    (isText : t.text = '#' :: text.toList) :
    ReadsAs [t] (.comment text (!decide (t.position.column ≤ 1)), "") := by
  refine ⟨by simp [isComment], ⟨[], none, some text, decide (t.position.column ≤ 1)⟩, ?_, ?_⟩
  · simp [Line.ofTokens, readStatement, trailingComment, commentText, isComment, isText]
  · simp [Line.items_eq, Line.words, Line.remarked, Except.map]

/-! ## Cutting a line -/

/-- A single blank in front of something else. -/
theorem cuts_blank {blank : Char} (isBlank : isGap blank = true)
    (stops : ∀ c ∈ cs.head?, isGap c = false)
    (further : Cuts mode (advance position none [blank]) cs tokens) :
    Cuts mode position (blank :: cs) tokens :=
  .gap (nextLexeme?_gap mode (List.cons_ne_nil blank []) (by simpa using isBlank) stops) further

theorem head_commentGap (comment : String) (rest : List Char) :
    ∀ c ∈ (commentGap comment ++ (commentMark comment ++ '\n' :: rest)).head?,
      c = '\t' ∨ c = '\n' := by
  unfold commentGap commentMark
  split <;> simp

theorem isGap_of_isBlank {c : Char} (solid : Text.isBlank c = false) : isGap c = false := by
  by_contra gap
  have gaps := eq_true_of_ne_false gap
  simp only [isGap, Bool.or_eq_true, decide_eq_true_eq] at gaps
  rcases gaps with (rfl | rfl) | rfl <;> contradiction

section

variable (noBreak : '\n' ∉ comment.toList)
include noBreak

theorem cuts_label {name : String} (isName : IsLabelName name.toList)
    (further : Cuts .line ⟨position.line + 1, 1⟩ rest tokens) :
    ∃ line nl, ReadsAs line (.label name, comment) ∧ nl.kind = .newline ∧
      Cuts .line position
        ((Content.label name).line.toList ++ (commentGap comment ++ (commentMark comment ++
          '\n' :: rest))) (line ++ nl :: tokens) := by
  let t : Token := ⟨.label, name.toList ++ [':'], position⟩
  obtain ⟨ending, nl, ends, isBreak, cuts⟩ := cuts_commentGap noBreak .line
    (advance position (some .label) t.text) further
  refine ⟨t :: ending, nl, readsAs_label rfl rfl ends, isBreak, ?_⟩
  have next := nextLexeme?_label isName
    (commentGap comment ++ (commentMark comment ++ '\n' :: rest))
  have whole : (Content.label name).line.toList = name.toList ++ [':'] := by simp [Content.line]
  rw [whole, List.append_assoc]
  exact .token next cuts

theorem cuts_directive {text : String} (directive : IsDirective text.toList)
    (trimmed : Text.Trimmed text.toList)
    (further : Cuts .line ⟨position.line + 1, 1⟩ rest tokens) :
    ∃ line nl, ReadsAs line (.directive text, comment) ∧ nl.kind = .newline ∧
      Cuts .line position
        ((Content.directive text).line.toList ++ (commentGap comment ++ (commentMark comment ++
          '\n' :: rest))) (line ++ nl :: tokens) := by
  let start := advance position none ['\t']
  let t : Token := ⟨.directive, text.toList ++ commentGap comment, start⟩
  obtain ⟨ending, nl, ends, isBreak, cuts⟩ := cuts_commentMark noBreak .line
    (advance start (some .directive) t.text) further
  have nonempty : text.toList ≠ [] := by
    obtain ⟨c, rest, whole, -⟩ := directive.shape
    simp [whole]
  have tabs := tabs_commentGap comment
  have trim : Text.trim (String.ofList t.text) = text := by
    rw [Text.trim, String.toList_ofList, trimmed.trimChars_append nonempty fun c member => by
      rw [tabs c member]; decide]
    exact String.ofList_toList
  refine ⟨t :: ending, nl, readsAs_statement (s := .directive text) (by simp [t])
    (List.forall_mem_cons.2 ⟨by simp [t], ends.oneLine⟩) ?_ ends rfl, isBreak, ?_⟩
  · simp only [readStatement, t]
    exact congrArg (fun text => (some (Statement.directive text), ending)) trim
  · have next := nextLexeme?_directive (directive.append_tabs tabs)
      (head_commentMark comment rest)
    obtain ⟨c, more, whole, -⟩ := directive.shape
    have layout : (Content.directive text).line.toList ++ (commentGap comment ++
        (commentMark comment ++ '\n' :: rest)) = '\t' :: (text.toList ++ commentGap comment ++
          (commentMark comment ++ '\n' :: rest)) := by simp [Content.line]
    rw [layout]
    refine cuts_blank (by decide) ?_ (.token next cuts)
    rw [whole]
    rintro d ⟨⟩
    decide

end

/-- A comment that stands alone begins a line. -/
theorem cuts_comment {n : Nat} {text : String} (noBreak : '\n' ∉ text.toList) (indented : Bool)
    (further : Cuts .line ⟨n + 1, 1⟩ rest tokens) :
    ∃ line nl, ReadsAs line (.comment text indented, "") ∧ nl.kind = .newline ∧
      Cuts .line ⟨n, 1⟩ ((Content.comment text indented).line.toList ++ '\n' :: rest)
        (line ++ nl :: tokens) := by
  have next : nextLexeme? .line ('#' :: text.toList ++ '\n' :: rest) = _ :=
    nextLexeme?_comment .line noBreak (by simp)
  cases indented with
  | false =>
    let t : Token := ⟨.comment, '#' :: text.toList, ⟨n, 1⟩⟩
    refine ⟨[t], ⟨.newline, ['\n'], advance t.position (some .comment) t.text⟩,
      readsAs_comment rfl rfl, rfl, ?_⟩
    have whole : (Content.comment text false).line.toList = '#' :: text.toList := by
      simp [Content.line, Printer.commentLine]
    rw [whole]
    exact .token next (.token (nextLexeme?_newline .line rest) further)
  | true =>
    let t : Token := ⟨.comment, '#' :: text.toList, ⟨n, 2⟩⟩
    refine ⟨[t], ⟨.newline, ['\n'], advance t.position (some .comment) t.text⟩,
      readsAs_comment rfl rfl, rfl, ?_⟩
    have whole : (Content.comment text true).line.toList = '\t' :: '#' :: text.toList := by
      simp [Content.line, Printer.commentLine]
    rw [whole]
    exact cuts_blank (by decide) (by simp; decide)
      (.token next (.token (nextLexeme?_newline .line rest) further))

/-! ### Commands -/

theorem EndsLine.firstOperands (ends : EndsLine comment ending) :
    firstOperands ending = ([], ending) := by
  cases ending with
  | nil => rfl
  | cons t rest => simp [Source.firstOperands, ends.kinds t List.mem_cons_self]

theorem EndsLine.moreOperands (ends : EndsLine comment ending) :
    moreOperands ending = ([], ending) := by
  rcases ending with _ | ⟨t, _ | ⟨u, rest⟩⟩
  · rfl
  · rfl
  · simp [Source.moreOperands, ends.kinds t List.mem_cons_self]

/-- The tokens of operands, up to the end of the line. -/
structure ReadsOperands (line : List Token) (texts : List String) (comment : String)
    (ending : List Token) : Prop where
  oneLine : ∀ t ∈ line, t.kind ≠ .newline
  starts : ∃ t more, line = t :: more ∧ t.kind = .operand
  read : ∃ operands, firstOperands line = (operands, ending) ∧ operands.map Text.trim = texts
  ends : EndsLine comment ending

theorem readsOperands_one {t : Token} {x : String} (isOperand : t.kind = .operand)
    (trim : Text.trim (String.ofList t.text) = x) (ends : EndsLine comment ending) :
    ReadsOperands (t :: ending) [x] comment ending where
  oneLine := List.forall_mem_cons.2 ⟨by simp [isOperand], ends.oneLine⟩
  starts := ⟨t, ending, rfl, isOperand⟩
  read := ⟨[String.ofList t.text], by simp [firstOperands, isOperand, ends.moreOperands],
    by simp [trim]⟩
  ends := ends

theorem ReadsOperands.cons {t comma : Token} {x : String} {xs : List String}
    (reads : ReadsOperands line xs comment ending) (isOperand : t.kind = .operand)
    (trim : Text.trim (String.ofList t.text) = x) (isComma : comma.kind = .comma) :
    ReadsOperands (t :: comma :: line) (x :: xs) comment ending where
  oneLine := List.forall_mem_cons.2 ⟨by simp [isOperand],
    List.forall_mem_cons.2 ⟨by simp [isComma], reads.oneLine⟩⟩
  starts := ⟨t, comma :: line, rfl, isOperand⟩
  read := by
    obtain ⟨u, more, rfl, isNext⟩ := reads.starts
    obtain ⟨operands, read, texts⟩ := reads.read
    refine ⟨String.ofList t.text :: operands, ?_, by simp [trim, texts]⟩
    simp only [firstOperands, isNext, if_true] at read
    simp only [firstOperands, isOperand, if_true, moreOperands, isComma, isNext, and_self]
    simp [Prod.mk.inj read]
  ends := reads.ends

/-- Plain texts with commas between them are cut into operands. -/
theorem cuts_operands (noBreak : '\n' ∉ comment.toList) (position : Position) {x : String}
    {xs : List String} (plain : ∀ s ∈ x :: xs, Operand.Plain s.toList)
    (further : Cuts .line ⟨position.line + 1, 1⟩ rest tokens) :
    ∃ line ending nl, ReadsOperands line (x :: xs) comment ending ∧ nl.kind = .newline ∧
      Cuts .operands position ((",".intercalate (x :: xs)).toList ++
        (commentGap comment ++ (commentMark comment ++ '\n' :: rest))) (line ++ nl :: tokens) := by
  induction xs generalizing x position with
  | nil =>
    have isPlain := plain x List.mem_cons_self
    have tabs := tabs_commentGap comment
    let t : Token := ⟨.operand, x.toList ++ commentGap comment, position⟩
    obtain ⟨ending, nl, ends, isBreak, cuts⟩ := cuts_commentMark noBreak .operands
      (advance position (some .operand) t.text) further
    have trim : Text.trim (String.ofList t.text) = x := by
      rw [Text.trim, String.toList_ofList,
        isPlain.trimmed.trimChars_append isPlain.nonempty fun c member => by
          rw [tabs c member]; decide]
      exact String.ofList_toList
    refine ⟨t :: ending, ending, nl, readsOperands_one rfl trim ends, isBreak, ?_⟩
    have next : nextLexeme? .operands (t.text ++ (commentMark comment ++ '\n' :: rest)) =
        some ⟨some .operand, t.text, commentMark comment ++ '\n' :: rest⟩ := by
      refine nextLexeme?_operand (by simp [t, isPlain.nonempty]) (fun c isHead => ?_) ?_
        fun c isHead => ?_
      · rw [List.head?_append_of_ne_nil _ isPlain.nonempty] at isHead
        exact isPlain.trimmed.head c isHead
      · refine List.forall_mem_append.2 ⟨isPlain.continues, fun c member => ?_⟩
        rw [tabs c member]
        decide
      · rcases head_commentMark comment rest c isHead with rfl | rfl <;> decide
    rw [String.intercalate_singleton, ← List.append_assoc]
    exact .token next cuts
  | cons y ys ih =>
    obtain ⟨isPlain, others⟩ := List.forall_mem_cons.1 plain
    let t : Token := ⟨.operand, x.toList, position⟩
    let comma : Token := ⟨.comma, [','], advance position (some .operand) t.text⟩
    obtain ⟨line, ending, nl, reads, isBreak, cuts⟩ :=
      ih (advance comma.position (some .comma) comma.text) others further
    have trim : Text.trim (String.ofList t.text) = x := by
      rw [Text.trim, String.toList_ofList, isPlain.trimmed.trimChars_eq isPlain.nonempty]
      exact String.ofList_toList
    refine ⟨t :: comma :: line, ending, nl, reads.cons rfl trim rfl, isBreak, ?_⟩
    have whole : (",".intercalate (x :: y :: ys)).toList ++
        (commentGap comment ++ (commentMark comment ++ '\n' :: rest)) =
        x.toList ++ ',' :: ((",".intercalate (y :: ys)).toList ++
          (commentGap comment ++ (commentMark comment ++ '\n' :: rest))) := by
      simp [String.intercalate_cons_cons]
    rw [whole]
    refine .token (nextLexeme?_operand isPlain.nonempty isPlain.trimmed.head isPlain.continues ?_)
      (.token (nextLexeme?_comma _) cuts)
    rintro c ⟨⟩
    decide

/-- Operands are read from texts that trimming makes theirs. -/
theorem read_eq_ok {c : Command} (legible : c.Legible) (position : Position)
    {operands : List String} (texts : operands.map Text.trim = c.args.map Operand.text) :
    (Statement.command ⟨position, c.mnemonic.name, operands⟩).read = .ok (.command c) := by
  have args : operands.mapM (fun text => Operand.ofText (Text.trim text)) = .ok c.args := by
    have read : (c.args.map Operand.text).mapM Operand.ofText = .ok c.args := by
      rw [List.mapM_map]
      exact (mapM_ok fun o member => (legible.args o member).ofText).trans
        (congrArg Except.ok (List.map_id _))
    rwa [← texts, List.mapM_map, Function.comp_def] at read
  have read : (⟨position, c.mnemonic.name, operands⟩ : CommandText).read = .ok c := by
    unfold CommandText.read
    simp only [args, bind, Except.bind, pure, Except.pure, legible.mnemonic.same]
  simp only [Statement.read, read]

/-- What ends a mnemonic. -/
theorem stops_of_gap {cs : List Char} (gap : ∀ c ∈ cs.head?, c = '\t' ∨ c = ' ' ∨ c = '\n') :
    ∀ c ∈ cs.head?, isLabelChar c = false ∧ c ≠ ':' := by
  intro c isHead
  rcases gap c isHead with rfl | rfl | rfl <;> decide

theorem toList_operandGap (mnemonic : String) : ∃ blank, (blank = '\t' ∨ blank = ' ') ∧
    (Printer.operandGap mnemonic).toList = [blank] := by
  unfold Printer.operandGap
  split
  · exact ⟨'\t', Or.inl rfl, rfl⟩
  · exact ⟨' ', Or.inr rfl, rfl⟩

theorem cuts_command (noBreak : '\n' ∉ comment.toList) (position : Position) {c : Command}
    (legible : c.Legible) (further : Cuts .line ⟨position.line + 1, 1⟩ rest tokens) :
    ∃ line nl, ReadsAs line (.command c, comment) ∧ nl.kind = .newline ∧
      Cuts .line position
        ((Content.command c).line.toList ++ (commentGap comment ++ (commentMark comment ++
          '\n' :: rest))) (line ++ nl :: tokens) := by
  have word := legible.mnemonic.word
  have startsSolid (behind : List Char) :
      ∀ d ∈ (c.mnemonic.name.toList ++ behind).head?, isGap d = false := by
    obtain ⟨d, more, whole, letter, -⟩ := word
    rw [whole]
    rintro d ⟨⟩
    exact isGap_of_isBlank (Text.isBlank_of_isAlphanum (by
      simpa [isLetter, Char.isAlphanum] using Or.inl letter))
  let start := advance position none ['\t']
  let t : Token := ⟨.mnemonic, c.mnemonic.name.toList, start⟩
  let behind := advance start (some .mnemonic) t.text
  cases isArgs : c.args with
  | nil =>
    obtain ⟨ending, nl, ends, isBreak, cuts⟩ := cuts_commentGap noBreak .operands behind further
    have read : readStatement (t :: ending) =
        (some (.command ⟨start, c.mnemonic.name, []⟩), ending) := by
      simp [readStatement, t, ends.firstOperands]
    have isRead := read_eq_ok legible start (show [].map Text.trim = _ by simp [isArgs])
    refine ⟨t :: ending, nl, readsAs_statement (by simp [t])
      (List.forall_mem_cons.2 ⟨by simp [t], ends.oneLine⟩) read ends isRead, isBreak, ?_⟩
    have whole : (Content.command c).line.toList = '\t' :: c.mnemonic.name.toList := by
      simp [Content.line, Printer.commandLine, isArgs]
    rw [whole, List.cons_append]
    refine cuts_blank (by decide) (startsSolid _) (.token (nextLexeme?_mnemonic word ?_) cuts)
    exact stops_of_gap fun d isHead => (head_commentGap comment rest d isHead).imp_right Or.inr
  | cons o os =>
    obtain ⟨blank, isBlank, gap⟩ := toList_operandGap c.mnemonic.name
    have plain : ∀ s ∈ o.text :: os.map Operand.text, Operand.Plain s.toList := by
      intro s member
      obtain ⟨o', isArg, rfl⟩ := List.mem_map.1 (List.map_cons ▸ member)
      exact (legible.args o' (isArgs ▸ isArg)).plain
    obtain ⟨line, ending, nl, reads, isBreak, cuts⟩ := cuts_operands noBreak
      (advance behind none [blank]) plain further
    obtain ⟨operands, isFirst, texts⟩ := reads.read
    have read : readStatement (t :: line) =
        (some (.command ⟨start, c.mnemonic.name, operands⟩), ending) := by
      simp [readStatement, t, isFirst]
    have isRead := read_eq_ok legible start
      (show operands.map Text.trim = _ by simp [isArgs, texts])
    refine ⟨t :: line, nl, readsAs_statement (by simp [t])
      (List.forall_mem_cons.2 ⟨by simp [t], reads.oneLine⟩) read reads.ends isRead, isBreak, ?_⟩
    have whole : (Content.command c).line.toList ++ (commentGap comment ++ (commentMark comment ++
        '\n' :: rest)) = '\t' :: (c.mnemonic.name.toList ++ blank ::
          ((",".intercalate (o.text :: os.map Operand.text)).toList ++ (commentGap comment ++
            (commentMark comment ++ '\n' :: rest)))) := by
      simp [Content.line, Printer.commandLine, isArgs, gap]
    rw [whole]
    refine cuts_blank (by decide) (startsSolid _) (.token (nextLexeme?_mnemonic word ?_)
      (cuts_blank (by rcases isBlank with rfl | rfl <;> decide) ?_ cuts))
    · refine stops_of_gap fun d isHead => ?_
      cases isHead
      exact isBlank.imp_right Or.inl
    · have first := plain o.text List.mem_cons_self
      obtain ⟨d, more, isText⟩ := List.exists_cons_of_ne_nil first.nonempty
      have joined : ∃ behind, (",".intercalate (o.text :: os.map Operand.text)).toList =
          d :: behind := by
        cases os with
        | nil => exact ⟨more, by simp [isText]⟩
        | cons o' os => exact ⟨_, by rw [List.map_cons, String.intercalate_cons_cons,
            String.toList_append, String.toList_append, isText]; rfl⟩
      obtain ⟨behind, isJoined⟩ := joined
      rw [isJoined]
      rintro d' ⟨⟩
      exact isGap_of_isBlank (first.trimmed.head d (by rw [isText]; rfl))

/-! ### Instructions -/

/-- A legible instruction is written as a line that is read as it. -/
theorem cuts_line {item : Content × String} (legible : Legible item) {n : Nat}
    (further : Cuts .line ⟨n + 1, 1⟩ rest tokens) :
    ∃ line nl, ReadsAs line item ∧ nl.kind = .newline ∧
      Cuts .line ⟨n, 1⟩
        ((item.1.line ++ Printer.trailer item.2 []).toList ++ '\n' :: rest)
        (line ++ nl :: tokens) := by
  obtain ⟨content, comment⟩ := item
  obtain ⟨isLegible, noBreak, alone⟩ := legible
  have layout : (content.line ++ Printer.trailer comment []).toList ++ '\n' :: rest =
      content.line.toList ++ (commentGap comment ++ (commentMark comment ++ '\n' :: rest)) := by
    simp [toList_trailer]
  rw [layout]
  cases content with
  | label name => exact cuts_label noBreak isLegible further
  | directive text => exact cuts_directive noBreak isLegible.1 isLegible.2 further
  | comment text indented =>
    obtain rfl : comment = "" := alone text indented rfl
    exact cuts_comment isLegible indented further
  | command c => exact cuts_command noBreak ⟨n, 1⟩ isLegible further

/-! ## Listings -/

theorem mem_of_mem_splitLines {t : Token} (isLine : line ∈ splitLines tokens) (found : t ∈ line) :
    t ∈ tokens := by
  fun_induction splitLines tokens generalizing line with
  | case1 => contradiction
  | case2 u rest isBreak ih =>
    rcases List.mem_cons.1 isLine with rfl | isLine
    · contradiction
    · exact List.mem_cons_of_mem _ (ih isLine found)
  | case3 u rest notBreak none ih =>
    rw [List.mem_singleton.1 isLine] at found
    exact List.mem_cons.2 (Or.inl (List.mem_singleton.1 found))
  | case4 u rest notBreak first others isLines ih =>
    rcases List.mem_cons.1 isLine with rfl | isLine
    · rcases List.mem_cons.1 found with rfl | found
      · exact List.mem_cons_self
      · exact List.mem_cons_of_mem _ (ih (isLines ▸ List.mem_cons_self) found)
    · exact List.mem_cons_of_mem _ (ih (isLines ▸ List.mem_cons_of_mem _ isLine) found)

/-- The lines of a listing are read as its instructions, each on a line of its own. -/
theorem cuts_listing {code : List Instr} (legible : ∀ p ∈ code, Legible (p.content, p.comment))
    (bare : ∀ p ∈ code, p.notes = []) (n : Nat) :
    ∃ tokens lines, Cuts .line ⟨n, 1⟩ (listing code).toList tokens ∧
      (splitLines tokens).mapM Line.ofTokens = .ok lines ∧
      lines.mapM Line.items = .ok (code.map fun p => [(p.content, p.comment)]) := by
  induction code generalizing n with
  | nil => exact ⟨[], [], .nil, rfl, rfl⟩
  | cons p code ih =>
    obtain ⟨here, others⟩ := List.forall_mem_cons.1 legible
    obtain ⟨noNotes, bareOthers⟩ := List.forall_mem_cons.1 bare
    obtain ⟨tokens, lines, cuts, isLines, isItems⟩ := ih others bareOthers (n + 1)
    obtain ⟨line, nl, ⟨oneLine, l, isLine, isItem⟩, isBreak, cuts⟩ := cuts_line here cuts
    refine ⟨line ++ nl :: tokens, l :: lines, ?_, ?_, ?_⟩
    · have whole : (listing (p :: code)).toList =
          (p.content.line ++ Printer.trailer p.comment []).toList ++
            '\n' :: (listing code).toList := by
        simp [listing, Instr.line, noNotes]
      rw [whole]
      exact cuts
    · rw [splitLines_append oneLine isBreak, List.mapM_cons, isLine, isLines]
      rfl
    · rw [List.mapM_cons, isItem, isItems]
      rfl

end Source

namespace Program

open Source

variable {program : Program} {cs : List Char}

/-- Everything in the program can be written so that it is read back, and there are no notes. -/
structure Legible (program : Program) : Prop where
  words : ∀ p ∈ program.code, Source.Legible (p.content, p.comment)
  bare : ∀ p ∈ program.code, p.notes = []

/-- A listing has a line break at its end already, unless it is empty. -/
theorem completed_listing {code : List Instr} (nonempty : code ≠ []) :
    completed (listing code).toList = (listing code).toList := by
  refine if_pos ?_
  obtain ⟨before, last, rfl⟩ := (List.eq_nil_or_concat' code).resolve_left nonempty
  have whole : (listing (before ++ [last])).toList =
      ((listing before).toList ++ last.line.toList) ++ ['\n'] := by simp [listing]
  rw [whole, List.getLast?_concat]

/-- The text of a legible program is read as its contents and comments, numbered from one. -/
theorem read_text (legible : program.Legible) : read program.text.toList =
    .ok (ofItems (program.code.map fun p => (p.content, p.comment))) := by
  by_cases isEmpty : program.code = []
  · rw [text, isEmpty]
    rfl
  · obtain ⟨tokens, lines, cuts, isLines, isItems⟩ := cuts_listing legible.words legible.bare 1
    have flat : (program.code.map fun p => [(p.content, p.comment)]).flatten =
        program.code.map fun p => (p.content, p.comment) := by
      rw [← List.flatMap_def, ← List.map_eq_flatMap]
    unfold read readLines
    rw [text, completed_listing isEmpty, tokens_eq_ok.2 cuts]
    simp only [isLines, bind, Except.bind, pure, Except.pure]
    unfold readItems
    simp only [isItems, flat]

/-! ## Programs that have been read -/

theorem items_ofItems (items : List (Content × String)) :
    (ofItems items).code.map (fun p => (p.content, p.comment)) = items := by
  simp only [ofItems, List.map_map]
  exact (List.map_congr_left fun _ _ => rfl).trans (List.zipIdx_map_fst 1 items)

theorem ids_ofItems (items : List (Content × String)) :
    (ofItems items).code.map Instr.id = List.range' 1 items.length := by
  simp only [ofItems, List.map_map]
  exact (List.map_congr_left fun _ _ => rfl).trans (List.zipIdx_map_snd 1 items)

theorem bare_ofItems (items : List (Content × String)) :
    ∀ p ∈ (ofItems items).code, p.notes = [] := by
  intro p member
  obtain ⟨_, -, rfl⟩ := List.mem_map.1 member
  rfl

/-- Programs that are read have been numbered from one, and are legible. -/
theorem exists_items_of_read (isRead : read cs = .ok program) :
    ∃ items, program = ofItems items ∧ ∀ item ∈ items, Source.Legible item := by
  unfold read at isRead
  simp only [bind, Except.bind, pure, Except.pure] at isRead
  split at isRead
  · contradiction
  · next lines isLines =>
    split at isRead
    · contradiction
    · next items isItems =>
      cases isRead
      refine ⟨items, rfl, ?_⟩
      unfold readLines at isLines
      split at isLines
      · contradiction
      · next tokens isTokens =>
        have proper := (tokens_eq_ok.1 isTokens).isToken
        split at isLines
        · contradiction
        · next lines' isLines' =>
          cases isLines
          unfold readItems at isItems
          split at isItems
          · contradiction
          · next groups isGroups =>
            cases isItems
            intro item member
            obtain ⟨group, isGroup, inside⟩ := List.mem_flatten.1 member
            obtain ⟨l, isLine, isItems⟩ := exists_of_mapM isGroups group isGroup
            obtain ⟨line, isPart, isRead⟩ := exists_of_mapM isLines' l isLine
            refine legible_of_items (Line.proper_of_ofTokens (fun t found => ?_) isRead)
              isItems item inside
            exact proper t (mem_of_mem_splitLines isPart found)

theorem legible_of_read (isRead : read cs = .ok program) : program.Legible := by
  obtain ⟨items, rfl, legible⟩ := exists_items_of_read isRead
  refine ⟨fun p member => legible _ ?_, bare_ofItems items⟩
  have inside := List.mem_map_of_mem (f := fun p : Instr => (p.content, p.comment)) member
  rwa [items_ofItems] at inside

end Program

end MipsFlow
