import MipsFlow.Proofs.LexerRules
import MipsFlow.Proofs.Lines

/-!
# What the lexer leaves to the line grammar

Which kind of token can follow which is settled by the lexer (`Reads.linked`): a directive or an
operand swallows all up to a place where only few rules match, and commas and operands stand behind
a mnemonic only. Of the token sequences of this shape, the line grammar refuses those with a comma
in a wrong place and no others, and it refuses them at the first such comma (`failure_ofTokens`,
`failure_splitLines`). The operands of what it accepts are the operand tokens in their order, so
that reading them fails at the first token with a bad text (`failure_items`).
-/

namespace MipsFlow

/-- The error of a computation that fails. -/
def failure? {ε α : Type} : Except ε α → Option ε
  | .error e => some e
  | .ok _ => none

section

variable {ε α β : Type} {f : α → Except ε β}

@[simp] theorem failure?_error (e : ε) : failure? (.error e : Except ε α) = some e := rfl

@[simp] theorem failure?_ok (a : α) : failure? (.ok a : Except ε α) = none := by
  simp [failure?]

@[simp] theorem failure?_map (g : α → β) (x : Except ε α) : failure? (x.map g) = failure? x := by
  cases x <;> rfl

theorem failure?_eq_some_iff {x : Except ε α} {e : ε} : failure? x = some e ↔ x = .error e := by
  cases x <;> simp

theorem failure?_eq_none_iff {x : Except ε α} : failure? x = none ↔ ∃ a, x = .ok a := by
  cases x <;> simp

/-- A sequence fails with its first failure. -/
theorem failure?_mapM (xs : List α) :
    failure? (xs.mapM f) = xs.findSome? fun x => failure? (f x) := by
  induction xs with
  | nil => rfl
  | cons x xs ih =>
    rw [List.mapM_cons, List.findSome?_cons, ← ih]
    cases f x with
    | error e => rfl
    | ok b => cases xs.mapM f <;> rfl

end

namespace Source

variable {mode : Mode} {cs text rest : List Char} {kind : Option TokenKind} {last : TokenKind}
  {p q : Progress} {line tokens : List Token} {t : Token} {previous : Option Token}

/-! ## Neighbouring tokens -/

/-- The kinds of the tokens that may follow a token of the kind. A new line may begin a source. -/
def TokenKind.followers : TokenKind → List TokenKind
  | .newline | .label => [.comment, .newline, .label, .directive, .mnemonic]
  | .directive => [.comment, .newline]
  | .comment => [.newline]
  | .mnemonic | .comma => [.comment, .newline, .comma, .operand]
  | .operand => [.comment, .newline, .comma]

/-- Each token may follow the one before it, and the first may follow one of the kind `last`. -/
def Linked : TokenKind → List Token → Prop
  | _, [] => True
  | last, t :: rest => t.kind ∈ last.followers ∧ Linked t.kind rest

/-- What holds where the lexer has just read a token of the kind. -/
def Progress.After (p : Progress) : TokenKind → Prop
  | .newline | .label => p.mode = .line
  | .directive => p.mode = .line ∧ ∀ c ∈ p.rest.head?, c = '\n' ∨ c = '#' ∨ c = '"'
  | .comment => ∀ c ∈ p.rest.head?, c = '\n'
  | .mnemonic | .comma => p.mode = .operands
  | .operand => p.mode = .operands ∧ ∀ c ∈ p.rest.head?, c = ',' ∨ c = '#' ∨ c = '\n'

/-- The characters that the texts of a rule begin with. -/
def canBegin : Option TokenKind → Char → Bool
  | none => isGap
  | some .comment => (· = '#')
  | some .newline => (· = '\n')
  | some .label => isLabelChar
  | some .directive => (· = '.')
  | some .mnemonic => isLetter
  | some .comma => (· = ',')
  | some .operand => startsOperand

theorem Describes.begins (describes : Describes kind text) :
    ∃ c rest, text = c :: rest ∧ canBegin kind c = true := by
  match kind, describes with
  | none, ⟨nonempty, gaps⟩ =>
    obtain ⟨c, rest, rfl⟩ := List.exists_cons_of_ne_nil nonempty
    exact ⟨c, rest, rfl, gaps c List.mem_cons_self⟩
  | some .comment, ⟨rest, isHash, _⟩ => exact ⟨_, rest, isHash, rfl⟩
  | some .newline, isBreak => exact ⟨_, [], isBreak, rfl⟩
  | some .label, ⟨name, isLabel, nonempty, chars⟩ =>
    obtain ⟨c, rest, rfl⟩ := List.exists_cons_of_ne_nil nonempty
    exact ⟨c, rest ++ [':'], isLabel, chars c List.mem_cons_self⟩
  | some .directive, ⟨c, rest, isDot, _⟩ => exact ⟨_, c :: rest, isDot, rfl⟩
  | some .mnemonic, ⟨c, rest, isCons, letter, _⟩ => exact ⟨c, rest, isCons, letter⟩
  | some .comma, isComma => exact ⟨_, [], isComma, rfl⟩
  | some .operand, ⟨c, rest, isCons, starts, _⟩ => exact ⟨c, rest, isCons, starts⟩

theorem Takes.mem_rules (takes : Takes mode cs kind text rest) : kind ∈ mode.rules := by
  obtain ⟨earlier, later, rules, -⟩ := takes.first
  simp [rules]

/-- What is taken begins with a character that the rule begins with. -/
theorem Takes.begins (takes : Takes mode cs kind text rest) :
    ∃ c ∈ cs.head?, canBegin kind c = true := by
  obtain ⟨c, behind, isCons, isBegin⟩ := takes.describes.begins
  exact ⟨c, by simp [takes.whole, isCons], isBegin⟩

/-- The longest match cannot be prolonged by one character. -/
theorem Longest.not_describes (longest : Longest kind cs text rest) {c : Char}
    (isHead : c ∈ rest.head?) : ¬ Describes kind (text ++ [c]) := by
  intro further
  obtain ⟨behind, rfl⟩ := List.head?_eq_some_iff.1 isHead
  have bounded := longest.longest (text ++ [c]) behind (by simp [longest.whole]) further
  rw [List.length_append, List.length_singleton] at bounded
  omega

/-- What holds behind a token depends on its kind only. -/
theorem Takes.after {kind : TokenKind} (takes : Takes p.mode p.rest kind text rest) :
    (p.behind kind text rest).After kind := by
  have inMode := takes.mem_rules
  have inLine (notOperands : some kind ∉ Mode.rules .operands) : p.mode = .line := by
    cases isMode : p.mode with
    | line => rfl
    | operands => exact absurd (isMode ▸ inMode) notOperands
  have inOperands (notLine : some kind ∉ Mode.rules .line) : p.mode = .operands := by
    cases isMode : p.mode with
    | operands => rfl
    | line => exact absurd (isMode ▸ inMode) notLine
  cases kind with
  | newline | mnemonic => rfl
  | label => exact inLine (by decide)
  | comma => exact inOperands (by decide)
  | comment =>
    intro c isHead
    by_contra noBreak
    obtain ⟨comment, isHash, inside⟩ := takes.describes
    refine takes.not_describes isHead ⟨comment ++ [c], by simp [isHash], fun d member => ?_⟩
    rcases List.mem_append.1 member with member | member
    · exact inside d member
    · exact List.mem_singleton.1 member ▸ noBreak
  | directive =>
    refine ⟨inLine (by decide), fun c isHead => ?_⟩
    by_contra noEnd
    simp only [not_or] at noEnd
    obtain ⟨d, quoted, isDot, start, well⟩ := takes.describes
    exact takes.not_describes isHead ⟨d, quoted ++ [c], by simp [isDot], start,
      well.append (.plain noEnd.1 noEnd.2.1 noEnd.2.2 .nil)⟩
  | operand =>
    refine ⟨inOperands (by decide), fun c isHead => ?_⟩
    by_contra noEnd
    simp only [not_or] at noEnd
    obtain ⟨d, further, isCons, starts, continues⟩ := takes.describes
    refine takes.not_describes isHead ⟨d, further ++ [c], by simp [isCons], starts, fun e member =>
      ?_⟩
    rcases List.mem_append.1 member with member | member
    · exact continues e member
    · rw [List.mem_singleton.1 member]
      simp [continuesOperand, noEnd]

/-- Where few characters can follow, only rules that begin with them match. -/
theorem Takes.begins_of_head {property : Char → Prop} (takes : Takes mode cs kind text rest)
    (heads : ∀ c ∈ cs.head?, property c) : ∃ c, property c ∧ canBegin kind c = true := by
  obtain ⟨c, isHead, isBegin⟩ := takes.begins
  exact ⟨c, heads c isHead, isBegin⟩

/-- The next token is of a kind that may follow. -/
theorem Takes.mem_followers {kind : TokenKind} (takes : Takes p.mode p.rest kind text rest)
    (after : p.After last) : kind ∈ last.followers := by
  have inMode := takes.mem_rules
  cases last with
  | newline | label | mnemonic | comma =>
    rw [after] at inMode
    revert inMode
    cases kind <;> decide
  | directive =>
    rw [after.1] at inMode
    obtain ⟨c, rfl | rfl | rfl, isBegin⟩ := takes.begins_of_head after.2 <;>
      revert inMode isBegin <;> cases kind <;> decide
  | comment =>
    obtain ⟨c, rfl, isBegin⟩ := takes.begins_of_head after
    revert isBegin
    cases kind <;> decide
  | operand =>
    rw [after.1] at inMode
    obtain ⟨c, rfl | rfl | rfl, isBegin⟩ := takes.begins_of_head after.2 <;>
      revert inMode isBegin <;> cases kind <;> decide

/-- White space changes nothing about what may follow, for there is none where that matters. -/
theorem Takes.after_gap (takes : Takes p.mode p.rest none text rest) (after : p.After last) :
    (p.behind none text rest).After last := by
  have noGap {property : Char → Prop} (heads : ∀ c ∈ p.rest.head?, property c)
      (solid : ∀ c, property c → isGap c = false) : False := by
    obtain ⟨c, allowed, gap⟩ := takes.begins_of_head heads
    exact absurd gap (by simpa [canBegin] using solid c allowed)
  cases last with
  | newline | label | mnemonic | comma => exact after
  | directive => exact (noGap after.2 (by rintro c (rfl | rfl | rfl) <;> rfl)).elim
  | comment => exact (noGap after (by rintro c rfl; rfl)).elim
  | operand => exact (noGap after.2 (by rintro c (rfl | rfl | rfl) <;> rfl)).elim

/-- Every sequence of tokens that the lexer reads is linked. -/
theorem Reads.linked (reads : Reads p tokens q) (after : p.After last) : Linked last tokens := by
  induction reads generalizing last with
  | here => trivial
  | gap takes _ ih => exact ih (takes.after_gap after)
  | token takes _ ih => exact ⟨takes.mem_followers after, ih takes.after⟩

/-! ## Lines -/

/-- The tokens are those of one line. -/
def Unbroken (line : List Token) : Prop := ∀ t ∈ line, t.kind ≠ .newline

theorem Linked.left {right : List Token} (linked : Linked last (line ++ right)) :
    Linked last line := by
  induction line generalizing last with
  | nil => trivial
  | cons t line ih => exact ⟨linked.1, ih linked.2⟩

theorem Linked.right {right : List Token} (linked : Linked last (line ++ t :: right)) :
    Linked t.kind right := by
  induction line generalizing last with
  | nil => exact linked.2
  | cons _ line ih => exact ih linked.2

theorem Unbroken.tail (unbroken : Unbroken (t :: line)) : Unbroken line :=
  fun u member => unbroken u (List.mem_cons_of_mem _ member)

theorem splitLines_of_unbroken (unbroken : Unbroken line) (nonempty : line ≠ []) :
    splitLines line = [line] := by
  induction line with
  | nil => contradiction
  | cons t line ih =>
    rw [splitLines, if_neg (unbroken t List.mem_cons_self)]
    cases line with
    | nil => rfl
    | cons u line => rw [ih unbroken.tail (List.cons_ne_nil _ _)]

/-- Induction over the lines of a sequence of tokens. -/
theorem lines_induction {motive : List Token → Prop} (nil : motive [])
    (last : ∀ line, Unbroken line → line ≠ [] → motive line)
    (broken : ∀ line n rest, Unbroken line → n.kind = .newline → motive rest →
      motive (line ++ n :: rest)) (tokens : List Token) : motive tokens := by
  induction isLength : tokens.length using Nat.strong_induction_on generalizing tokens with
  | h length ih =>
    let line := tokens.takeWhile (·.kind ≠ .newline)
    have unbroken : Unbroken line := fun t member => by
      simpa using List.mem_takeWhile_imp member
    have whole : line ++ tokens.dropWhile (·.kind ≠ .newline) = tokens :=
      List.takeWhile_append_dropWhile
    cases behind : tokens.dropWhile (·.kind ≠ .newline) with
    | nil =>
      rw [behind, List.append_nil] at whole
      rw [← whole]
      by_cases isEmpty : line = []
      · exact isEmpty ▸ nil
      · exact last line unbroken isEmpty
    | cons n rest =>
      have isBreak : n.kind = .newline := by
        have found := List.head?_dropWhile_not (·.kind ≠ .newline) tokens
        rw [behind] at found
        simpa using found
      rw [behind] at whole
      have shorter : rest.length < length := by
        rw [← isLength, ← whole, List.length_append, List.length_cons]
        omega
      exact whole ▸ broken line n rest unbroken isBreak (ih _ shorter rest rfl)

/-! ## Commas -/

/-- A comma where none may stand: behind a mnemonic, or with no operand behind it. -/
def Misplaced (previous : Option Token) (t : Token) (next : Option Token) : Prop :=
  t.kind = .comma ∧ ((∃ m ∈ previous, m.kind = .mnemonic) ∨ ∀ u ∈ next, u.kind ≠ .operand)

instance (previous : Option Token) (t : Token) (next : Option Token) :
    Decidable (Misplaced previous t next) := inferInstanceAs (Decidable (_ ∧ _))

/-- The first misplaced comma, where `previous` stands before the tokens. -/
def strayComma? (previous : Option Token) : List Token → Option Token
  | [] => none
  | t :: rest =>
    if Misplaced previous t rest.head? then some t else strayComma? (some t) rest

theorem strayComma?_of_kind (noComma : t.kind ≠ .comma) (previous : Option Token)
    (rest : List Token) : strayComma? previous (t :: rest) = strayComma? (some t) rest :=
  if_neg fun misplaced => noComma misplaced.1

/-- A stray comma is one of its line. -/
theorem strayComma?_append {n : Token} {rest : List Token} (isBreak : n.kind = .newline) :
    strayComma? previous (line ++ n :: rest) =
      (strayComma? previous line).or (strayComma? (some n) rest) := by
  induction line generalizing previous with
  | nil => exact strayComma?_of_kind (by simp [isBreak]) _ _
  | cons t line ih =>
    have same : Misplaced previous t (line ++ n :: rest).head? ↔
        Misplaced previous t line.head? := by
      cases line with
      | nil => simp [Misplaced, isBreak]
      | cons u line => rfl
    rw [List.cons_append, strayComma?, strayComma?, ih]
    simp only [same]
    split <;> rfl

/-! ## Operands -/

/-- What is wrong with the text of an operand. -/
def operandFailure? (text : String) : Option OperandError :=
  failure? (Operand.ofText (Text.trim text))

/-- The first operand that cannot be read, and the position of its mnemonic. Until there is a
mnemonic, this is `position`. -/
def refusal? (position : Position) : List Token → Option (Position × OperandError)
  | [] => none
  | t :: rest =>
    match t.kind with
    | .mnemonic => refusal? t.position rest
    | .operand =>
      match operandFailure? (String.ofList t.text) with
      | some e => some (position, e)
      | none => refusal? position rest
    | _ => refusal? position rest

variable {position : Position}

theorem refusal?_of_kind (noMnemonic : t.kind ≠ .mnemonic) (noOperand : t.kind ≠ .operand)
    (position : Position) (rest : List Token) :
    refusal? position (t :: rest) = refusal? position rest := by
  rw [refusal?]
  split <;> first | contradiction | rfl

theorem refusal?_operand (isOperand : t.kind = .operand) (position : Position)
    (rest : List Token) : refusal? position (t :: rest) =
      ((operandFailure? (String.ofList t.text)).map (position, ·)).or (refusal? position rest) := by
  simp only [refusal?, isOperand]
  cases operandFailure? (String.ofList t.text) <;> rfl

theorem refusal?_mnemonic (isMnemonic : t.kind = .mnemonic) (position : Position)
    (rest : List Token) : refusal? position (t :: rest) = refusal? t.position rest := by
  simp only [refusal?, isMnemonic]

/-- Operands follow a mnemonic on their line. -/
theorem refusal?_congr (first : last ∈ [TokenKind.newline, .label, .directive, .comment])
    (linked : Linked last tokens) (position position' : Position) :
    refusal? position tokens = refusal? position' tokens := by
  induction tokens generalizing last with
  | nil => rfl
  | cons t rest ih =>
    have isFirst : t.kind ∈ TokenKind.followers .newline := by
      have inside := linked.1
      revert first inside
      cases last <;> cases t.kind <;> decide
    by_cases isMnemonic : t.kind = .mnemonic
    · rw [refusal?_mnemonic isMnemonic, refusal?_mnemonic isMnemonic]
    · have further : t.kind ∈ [TokenKind.newline, .label, .directive, .comment] := by
        revert isFirst isMnemonic
        cases t.kind <;> decide
      have noOperand : t.kind ≠ .operand := fun isOperand => by simp [isOperand] at further
      rw [refusal?_of_kind isMnemonic noOperand, refusal?_of_kind isMnemonic noOperand]
      exact ih further linked.2

theorem refusal?_append {n : Token} {rest : List Token} (isBreak : n.kind = .newline)
    (linked : Linked .newline rest) (position' : Position) :
    refusal? position (line ++ n :: rest) =
      (refusal? position line).or (refusal? position' rest) := by
  induction line generalizing position with
  | nil =>
    rw [List.nil_append, refusal?_of_kind (by simp [isBreak]) (by simp [isBreak])]
    exact refusal?_congr (by simp) linked position position'
  | cons t line ih =>
    rw [List.cons_append]
    by_cases isMnemonic : t.kind = .mnemonic
    · rw [refusal?_mnemonic isMnemonic, refusal?_mnemonic isMnemonic, ih]
    · by_cases isOperand : t.kind = .operand
      · rw [refusal?_operand isOperand, refusal?_operand isOperand, ih, Option.or_assoc]
      · rw [refusal?_of_kind isMnemonic isOperand, refusal?_of_kind isMnemonic isOperand, ih]

/-! ## Reading a line -/

/-- Nothing is left of the line, but for a comment. -/
inductive Closing : List Token → Prop
  | nil : Closing []
  | comment {t : Token} : t.kind = .comment → Closing [t]

theorem Linked.closing_of_comment (linked : Linked .comment line) (unbroken : Unbroken line) :
    Closing line := by
  cases line with
  | nil => exact .nil
  | cons t rest => exact absurd (List.mem_singleton.1 linked.1) (unbroken t List.mem_cons_self)

/-- A comment is the last token of its line. -/
theorem Linked.closing_of_cons (linked : Linked last (t :: line)) (unbroken : Unbroken (t :: line))
    (isComment : t.kind = .comment) : Closing (t :: line) := by
  cases Linked.closing_of_comment (isComment ▸ linked.2) unbroken.tail with
  | nil => exact .comment isComment
  | comment isComment' =>
    have behind : _ ∈ TokenKind.followers .comment := isComment ▸ linked.2.1
    rw [isComment'] at behind
    contradiction

theorem Linked.closing_of_directive (linked : Linked .directive line)
    (unbroken : Unbroken line) : Closing line := by
  cases line with
  | nil => exact .nil
  | cons t rest =>
    have isFirst := linked.1
    simp only [TokenKind.followers, List.mem_cons, List.not_mem_nil, or_false] at isFirst
    exact linked.closing_of_cons unbroken (isFirst.resolve_right (unbroken t List.mem_cons_self))

/-- What can follow an operand on its line. -/
theorem Linked.closing_or_comma (linked : Linked .operand line) (unbroken : Unbroken line) :
    Closing line ∨ ∃ comma rest, line = comma :: rest ∧ comma.kind = .comma := by
  cases line with
  | nil => exact Or.inl .nil
  | cons t rest =>
    have isFirst := linked.1
    simp only [TokenKind.followers, List.mem_cons, List.not_mem_nil, or_false] at isFirst
    rcases isFirst with isComment | isBreak | isComma
    · exact Or.inl (linked.closing_of_cons unbroken isComment)
    · exact absurd isBreak (unbroken t List.mem_cons_self)
    · exact Or.inr ⟨t, rest, rfl, isComma⟩

/-- A part of a line has been read as far as to the tokens `left`, with the failures `failures`
where its command stands at a position. No token is left but from a misplaced comma on, and if there
is none the failures are those of the operand tokens. -/
structure ReadTo (previous : Option Token) (line : List Token)
    (failures : Position → Option (Position × OperandError)) (left : List Token) : Prop where
  stray : (trailingComment left).2.head? = strayComma? previous line
  refusal : strayComma? previous line = none → ∀ position,
    failures position = refusal? position line

theorem Closing.readTo (closing : Closing line) (previous : Option Token) :
    ReadTo previous line (fun _ => none) line := by
  cases closing with
  | nil => exact ⟨rfl, fun _ _ => rfl⟩
  | comment isComment =>
    exact ⟨by simp [trailingComment, isComment, strayComma?, Misplaced],
      fun _ _ => by simp [refusal?, isComment]⟩

/-- Nothing is read of what begins with a misplaced comma. -/
theorem Misplaced.readTo {comma : Token} {rest : List Token}
    (misplaced : Misplaced previous comma rest.head?)
    (failures : Position → Option (Position × OperandError)) :
    ReadTo previous (comma :: rest) failures (comma :: rest) := by
  have found : strayComma? previous (comma :: rest) = some comma := if_pos misplaced
  exact ⟨by simp [trailingComment, misplaced.1, found], fun placed => by simp [found] at placed⟩

/-- The failure of some operands, at the position of their command. -/
def operandsFailure? (operands : List String) (position : Position) :
    Option (Position × OperandError) :=
  (operands.findSome? operandFailure?).map (position, ·)

theorem operandsFailure?_cons (text : String) (operands : List String) (position : Position) :
    operandsFailure? (text :: operands) position =
      ((operandFailure? text).map (position, ·)).or (operandsFailure? operands position) := by
  rw [operandsFailure?, List.findSome?_cons]
  cases operandFailure? text <;> rfl

/-- Reading an operand and then what follows it. -/
theorem ReadTo.operand {o : Token} {operands : List String} {left : List Token}
    (isOperand : o.kind = .operand)
    (readTo : ReadTo (some o) line (operandsFailure? operands) left) (previous : Option Token) :
    ReadTo previous (o :: line) (operandsFailure? (String.ofList o.text :: operands)) left := by
  have skipped : strayComma? previous (o :: line) = strayComma? (some o) line :=
    strayComma?_of_kind (by simp [isOperand]) _ _
  refine ⟨skipped ▸ readTo.stray, fun placed position => ?_⟩
  rw [operandsFailure?_cons, refusal?_operand isOperand,
    readTo.refusal (skipped ▸ placed) position]

/-- The operands that follow an operand. -/
theorem readTo_moreOperands {o : Token} (isOperand : o.kind = .operand)
    (linked : Linked .operand line) (unbroken : Unbroken line) :
    ReadTo (some o) line (operandsFailure? (moreOperands line).1) (moreOperands line).2 := by
  -- where the loop stops, the line ends or a comma has no operand behind it
  have stops {o : Token} {line : List Token} (linked : Linked .operand line)
      (unbroken : Unbroken line)
      (noMore : ∀ comma rest, line = comma :: rest → comma.kind = .comma →
        ∀ u ∈ rest.head?, u.kind ≠ .operand) :
      ReadTo (some o) line (operandsFailure? []) line := by
    rcases linked.closing_or_comma unbroken with closing | ⟨comma, rest, rfl, isComma⟩
    · exact closing.readTo _
    · exact Misplaced.readTo ⟨isComma, Or.inr (noMore comma rest rfl isComma)⟩ _
  fun_induction moreOperands line generalizing o with
  | case1 comma operand rest kinds further left read ih =>
    obtain ⟨isComma, isOperand'⟩ := kinds
    have linked' : Linked .operand rest := isOperand' ▸ linked.2.2
    have behind := ih isOperand' linked' unbroken.tail.tail
    rw [read] at behind
    have placed : ¬ Misplaced (some o) comma (operand :: rest).head? := fun misplaced =>
      misplaced.2.elim (by simp [isOperand]) fun none => none operand rfl isOperand'
    have skipped : strayComma? (some o) (comma :: operand :: rest) =
        strayComma? (some comma) (operand :: rest) := if_neg placed
    obtain ⟨stray, refusal⟩ := behind.operand isOperand' (some comma)
    refine ⟨skipped ▸ stray, fun none position => ?_⟩
    rw [refusal?_of_kind (by simp [isComma]) (by simp [isComma])]
    exact refusal (skipped ▸ none) position
  | case2 t u rest kinds =>
    refine stops linked unbroken ?_
    rintro _ _ ⟨⟩ isComma _ ⟨⟩ isOperand'
    exact kinds ⟨isComma, isOperand'⟩
  | case3 line short =>
    refine stops linked unbroken ?_
    rintro comma (_ | ⟨u, rest⟩) rfl isComma
    · simp
    · exact absurd rfl (short comma u rest)

/-- The operands that follow a mnemonic. -/
theorem readTo_firstOperands {m : Token} (isMnemonic : m.kind = .mnemonic)
    (linked : Linked .mnemonic line) (unbroken : Unbroken line) :
    ReadTo (some m) line (operandsFailure? (firstOperands line).1) (firstOperands line).2 := by
  cases line with
  | nil => exact Closing.nil.readTo _
  | cons t rest =>
    have isFirst := linked.1
    simp only [TokenKind.followers, List.mem_cons, List.not_mem_nil, or_false] at isFirst
    by_cases isOperand : t.kind = .operand
    · rw [firstOperands, if_pos isOperand]
      exact (readTo_moreOperands isOperand (isOperand ▸ linked.2) unbroken.tail).operand isOperand _
    · rw [firstOperands, if_neg isOperand]
      rcases isFirst with isComment | isBreak | isComma | isOperand'
      · exact (linked.closing_of_cons unbroken isComment).readTo _
      · exact absurd isBreak (unbroken t List.mem_cons_self)
      · exact Misplaced.readTo ⟨isComma, Or.inl ⟨m, rfl, isMnemonic⟩⟩ _
      · exact absurd isOperand' isOperand

theorem failure_read (c : CommandText) :
    failure? c.read = c.operands.findSome? operandFailure? := by
  have same : c.read = (c.operands.mapM fun text => Operand.ofText (Text.trim text)).map
      fun args => ⟨.ofName c.mnemonic, args⟩ := by
    unfold CommandText.read
    cases c.operands.mapM fun text => Operand.ofText (Text.trim text) <;> rfl
  rw [same, failure?_map, failure?_mapM]
  rfl

/-- What is wrong with the statement of a line. -/
def statementFailure? (statement : Option Statement) : Option (Position × OperandError) :=
  statement.bind fun s => failure? s.read

theorem failure_command (c : CommandText) :
    statementFailure? (some (.command c)) = operandsFailure? c.operands c.position := by
  rw [operandsFailure?, ← failure_read, statementFailure?, Option.bind_some, Statement.read]
  split <;> next read => simp [read]

/-- What a line says behind its labels. -/
theorem readTo_readStatement (first : last = .newline ∨ last = .label) (linked : Linked last line)
    (unbroken : Unbroken line) (noMnemonic : ∀ m ∈ previous, m.kind ≠ .mnemonic) :
    ReadTo previous line
      (fun _ => statementFailure? (readStatement (line.dropWhile (·.kind = .label))).1)
      (readStatement (line.dropWhile (·.kind = .label))).2 := by
  induction line generalizing last previous with
  | nil => exact Closing.nil.readTo _
  | cons t rest ih =>
    have isFirst : t.kind ∈ TokenKind.followers .newline := by
      rcases first with rfl | rfl <;> exact linked.1
    simp only [TokenKind.followers, List.mem_cons, List.not_mem_nil, or_false] at isFirst
    have skipped : strayComma? previous (t :: rest) = strayComma? (some t) rest :=
      strayComma?_of_kind (fun isComma => by simp [isComma] at isFirst) _ _
    rcases isFirst with isComment | isBreak | isLabel | isDirective | isMnemonic
    · rw [List.dropWhile_cons_of_neg (by simp [isComment])]
      simp only [readStatement, isComment]
      exact (linked.closing_of_cons unbroken isComment).readTo _
    · exact absurd isBreak (unbroken t List.mem_cons_self)
    · rw [List.dropWhile_cons_of_pos (by simp [isLabel])]
      have noMnemonic' : ∀ m ∈ some t, m.kind ≠ .mnemonic := by simp [isLabel]
      obtain ⟨stray, refusal⟩ := ih (Or.inr rfl) (isLabel ▸ linked.2) unbroken.tail noMnemonic'
      refine ⟨skipped ▸ stray, fun placed position => ?_⟩
      rw [refusal?_of_kind (by simp [isLabel]) (by simp [isLabel])]
      exact refusal (skipped ▸ placed) position
    · rw [List.dropWhile_cons_of_neg (by simp [isDirective])]
      simp only [readStatement, isDirective]
      obtain ⟨stray, refusal⟩ := (Linked.closing_of_directive (isDirective ▸ linked.2)
        unbroken.tail).readTo (some t)
      refine ⟨skipped ▸ stray, fun placed position => ?_⟩
      rw [refusal?_of_kind (by simp [isDirective]) (by simp [isDirective])]
      exact refusal (skipped ▸ placed) position
    · rw [List.dropWhile_cons_of_neg (by simp [isMnemonic])]
      simp only [readStatement, isMnemonic]
      obtain ⟨stray, refusal⟩ := readTo_firstOperands isMnemonic (isMnemonic ▸ linked.2)
        unbroken.tail
      refine ⟨skipped ▸ stray, fun placed position => ?_⟩
      rw [refusal?_mnemonic isMnemonic, ← refusal (skipped ▸ placed) t.position]
      exact failure_command ⟨t.position, String.ofList t.text, (firstOperands rest).1⟩

/-- A line is refused at its first misplaced comma, and for nothing else. -/
theorem failure_ofTokens (previous : Option Token) (linked : Linked .newline line)
    (unbroken : Unbroken line) (noMnemonic : ∀ m ∈ previous, m.kind ≠ .mnemonic) :
    failure? (Line.ofTokens line) = strayComma? previous line := by
  rw [← (readTo_readStatement (Or.inl rfl) linked unbroken noMnemonic).stray]
  unfold Line.ofTokens
  simp only
  split
  · next behind => simp [behind]
  · next behind => simp [behind]

/-- A sequence of lines is refused at the first misplaced comma of all. -/
theorem failure_splitLines (previous : Option Token) (linked : Linked .newline tokens)
    (noMnemonic : ∀ m ∈ previous, m.kind ≠ .mnemonic) :
    failure? ((splitLines tokens).mapM Line.ofTokens) = strayComma? previous tokens := by
  rw [failure?_mapM]
  induction tokens using lines_induction generalizing previous with
  | nil => rfl
  | last line unbroken nonempty =>
    rw [splitLines_of_unbroken unbroken nonempty, List.findSome?_singleton]
    exact failure_ofTokens previous linked unbroken noMnemonic
  | broken line n rest unbroken isBreak ih =>
    have behind : Linked .newline rest := isBreak ▸ linked.right
    have later : ∀ m ∈ some n, m.kind ≠ .mnemonic := by simp [isBreak]
    rw [splitLines_append unbroken isBreak, strayComma?_append isBreak, List.findSome?_cons,
      failure_ofTokens previous linked.left unbroken noMnemonic, ih (some n) behind later]
    cases strayComma? previous line <;> rfl

theorem failure_items_of_line (l : Line) :
    failure? l.items = statementFailure? l.statement := by
  rw [Line.items_eq, failure?_map]
  unfold Line.words
  split
  · next isNone => simp [isNone, statementFailure?]
  · next s isSome => simp [isSome, statementFailure?]

theorem statement_of_ofTokens {l : Line} (read : Line.ofTokens line = .ok l) :
    l.statement = (readStatement (line.dropWhile (·.kind = .label))).1 := by
  unfold Line.ofTokens at read
  simp only at read
  split at read
  · contradiction
  · cases read
    rfl

/-- In lines without misplaced commas, the first operand that cannot be read makes them fail. -/
theorem failure_items {lines : List Line} (linked : Linked .newline tokens)
    (read : (splitLines tokens).mapM Line.ofTokens = .ok lines) (position : Position) :
    failure? (lines.mapM Line.items) = refusal? position tokens := by
  have one {line : List Token} {l : Line} (linked : Linked .newline line)
      (unbroken : Unbroken line) (read : Line.ofTokens line = .ok l) :
      failure? l.items = refusal? position line := by
    have placed : strayComma? none line = none := by
      rw [← failure_ofTokens none linked unbroken (by simp), read]
      rfl
    rw [failure_items_of_line, statement_of_ofTokens read]
    exact (readTo_readStatement (Or.inl rfl) linked unbroken (by simp)).refusal placed position
  rw [failure?_mapM]
  induction tokens using lines_induction generalizing lines with
  | nil =>
    cases read
    rfl
  | last line unbroken nonempty =>
    rw [splitLines_of_unbroken unbroken nonempty] at read
    simp only [List.mapM_cons, List.mapM_nil, bind, Except.bind, pure, Except.pure] at read
    split at read
    · contradiction
    · next l isRead =>
      cases read
      rw [List.findSome?_singleton, one linked unbroken isRead]
  | broken line n rest unbroken isBreak ih =>
    have behind : Linked .newline rest := isBreak ▸ linked.right
    rw [splitLines_append unbroken isBreak] at read
    simp only [List.mapM_cons, bind, Except.bind, pure, Except.pure] at read
    split at read
    · contradiction
    · next l isRead =>
      split at read
      · contradiction
      · next ls areRead =>
        cases read
        rw [refusal?_append isBreak behind position, List.findSome?_cons,
          one linked.left unbroken isRead, ih behind areRead]
        cases refusal? position line <;> rfl

end Source

end MipsFlow
