import MipsFlow.Program
import MipsFlow.Proofs.LineGrammar

/-!
# Which sources are refused

A source is refused for one of three kinds of error, and they are looked for one after the other in
the whole source: text that no rule of the lexer describes, a misplaced comma, and an operand that
cannot be read. Within a kind the first error is the one that is reported. `Program.Rejects` says so
without the functions that cut, group and read.

* `Program.parse_refuses`: reading fails with exactly these errors, and lines are refused for
  nothing but a misplaced comma.
-/

namespace MipsFlow

/-! ## Texts of operands -/

namespace Reg

/-- Whatever is read as a register is made of the characters of names. -/
theorem isNameChar_of_ofName? {s : String} {r : Reg} (read : ofName? s = some r) :
    ∀ c ∈ s.toList, isNameChar c = true := by
  have aliased : ∀ p ∈ aliases, p.1.toList.all isNameChar = true := by decide +kernel
  unfold ofName? at read
  split at read
  · next cs text =>
    rw [text]
    refine List.forall_mem_cons.2 ⟨rfl, ?_⟩
    unfold ofBareName? at read
    split at read
    · next n found =>
      obtain ⟨before, after, isAlias, -⟩ := List.lookup_eq_some_iff.1 found
      simpa using aliased (String.ofList cs, n) (isAlias ▸ by simp)
    · split at read
      · next n _ =>
        split at read
        · next canonical =>
          intro c member
          refine Operand.isNameChar_of_mem_decimal (v := n) ?_
          rwa [canonical, String.toList_ofList]
        · contradiction
      · split at read
        · obtain ⟨-, n, isNumber⟩ := ofFloatSpelling?_eq_some read
          exact List.forall_mem_cons.2 ⟨rfl, isNameChar_of_readDecimal? isNumber⟩
        · contradiction
  · contradiction

end Reg

namespace Operand

variable {s : String} {cs : List Char} {e : OperandError}

/-- The text, with no blanks at its ends, is refused as an operand: it is empty, or it begins with a
dollar sign and a digit but is neither a register nor an offset and a base that is a register. -/
inductive Refused : List Char → OperandError → Prop
  | empty : Refused [] .empty
  | register {c : Char} {rest : List Char} : c.isDigit = true →
    Reg.ofName? (String.ofList ('$' :: c :: rest)) = none →
    (∀ offset base, '$' :: c :: rest = offset ++ '(' :: (base ++ [')']) →
      Reg.ofName? (String.ofList base) = none) →
    Refused ('$' :: c :: rest) (.invalidRegister (String.ofList ('$' :: c :: rest)))

theorem readMemory?_eq_none_iff : readMemory? cs = none ↔
    ∀ offset base, cs = offset ++ '(' :: (base ++ [')']) →
      Reg.ofName? (String.ofList base) = none := by
  constructor
  · rintro unread offset base rfl
    by_contra isRegister
    obtain ⟨r, read⟩ := Option.ne_none_iff_exists'.1 isRegister
    have names := Reg.isNameChar_of_ofName? read
    rw [String.toList_ofList] at names
    rw [readMemory?_append names read] at unread
    contradiction
  · intro noBase
    by_contra isMemory
    obtain ⟨o, read⟩ := Option.ne_none_iff_exists'.1 isMemory
    obtain ⟨⟨offset, base⟩, split, isBase⟩ := Option.bind_eq_some_iff.1 read
    have noRegister := noBase offset base (eq_append_of_splitMemory? split)
    simp only [noRegister, Option.map_none, reduceCtorEq] at isBase

/-- No number begins with a dollar sign. -/
theorem readNumber?_dollar (cs : List Char) : readNumber? ('$' :: cs) = none := by
  have unsigned : ∃ e, Text.Numeral.unsigned ('$' :: cs) = .error e := ⟨.malformed, rfl⟩
  obtain ⟨e, unsigned⟩ := unsigned
  have signed : Text.Numeral.signed ('$' :: cs) = .error e := by
    rw [Text.Numeral.signed.eq_3 _ (by simp) (by simp), unsigned]
    rfl
  simp only [readNumber?, signed, unsigned]

theorem ofText_eq_error_iff : ofText s = .error e ↔ Refused s.toList e := by
  obtain ⟨cs, rfl⟩ : ∃ cs, s = String.ofList cs := ⟨s.toList, String.ofList_toList.symm⟩
  unfold ofText
  rw [String.toList_ofList]
  constructor
  · intro failed
    simp only at failed
    split at failed
    · next isEmpty =>
      cases failed
      rw [List.isEmpty_iff.1 isEmpty]
      exact .empty
    · split at failed
      · contradiction
      · next noMemory =>
        split at failed
        · contradiction
        · next noRegister =>
          split at failed
          · contradiction
          · split at failed
            · next numbered =>
              cases failed
              unfold looksNumbered at numbered
              split at numbered
              · exact .register numbered noRegister (readMemory?_eq_none_iff.1 noMemory)
              · contradiction
            · contradiction
  · rintro (_ | ⟨digit, noRegister, noBase⟩)
    · rfl
    · simp only [readMemory?_eq_none_iff.2 noBase, noRegister, readNumber?_dollar, looksNumbered,
        digit]
      rfl

end Operand

namespace Source

variable {tokens : List Token} {t : Token} {previous : Option Token} {position : Position}
  {e : OperandError}

/-! ## The first misplaced comma -/

/-- The token is the first comma of all that is misplaced. -/
def FirstMisplaced (tokens : List Token) (t : Token) : Prop :=
  ∃ before after, tokens = before ++ t :: after ∧ Misplaced before.getLast? t after.head? ∧
    ∀ earlier u later, before = earlier ++ u :: later →
      ¬ Misplaced earlier.getLast? u (later ++ t :: after).head?

/-- No comma is misplaced. -/
def NoneMisplaced (tokens : List Token) : Prop :=
  ∀ before t after, tokens = before ++ t :: after → ¬ Misplaced before.getLast? t after.head?

theorem getLast?_cons_or (t : Token) (before : List Token) :
    (t :: before).getLast?.or previous = before.getLast?.or (some t) := by
  cases h : before.getLast? <;> simp [List.getLast?_cons, h]

/-- What `strayComma?` finds is the first misplaced comma. The token `previous` stands before
all. -/
theorem strayComma?_eq_some_iff : strayComma? previous tokens = some t ↔
    ∃ before after, tokens = before ++ t :: after ∧
      Misplaced (before.getLast?.or previous) t after.head? ∧
      ∀ earlier u later, before = earlier ++ u :: later →
        ¬ Misplaced (earlier.getLast?.or previous) u (later ++ t :: after).head? := by
  induction tokens generalizing previous with
  | nil => simp [strayComma?]
  | cons u rest ih =>
    rw [strayComma?]
    split
    · next misplaced =>
      constructor
      · rintro ⟨⟩
        exact ⟨[], rest, rfl, misplaced, by simp⟩
      · rintro ⟨_ | ⟨v, before⟩, after, whole, -, first⟩
        · exact congrArg some (List.cons.inj whole).1
        · obtain ⟨rfl, rfl⟩ := List.cons.inj whole
          exact absurd misplaced (first [] u before rfl)
    · next placed =>
      rw [ih]
      constructor
      · rintro ⟨before, after, rfl, misplaced, first⟩
        refine ⟨u :: before, after, rfl, (getLast?_cons_or u before).symm ▸ misplaced, ?_⟩
        rintro (_ | ⟨v, earlier⟩) w later whole
        · obtain ⟨rfl, rfl⟩ := List.cons.inj whole
          exact placed
        · obtain ⟨rfl, rfl⟩ := List.cons.inj whole
          exact (getLast?_cons_or u earlier).symm ▸ first earlier w later rfl
      · rintro ⟨_ | ⟨v, before⟩, after, whole, misplaced, first⟩
        · obtain ⟨rfl, rfl⟩ := List.cons.inj whole
          exact absurd misplaced placed
        · obtain ⟨rfl, rfl⟩ := List.cons.inj whole
          rw [getLast?_cons_or] at misplaced
          refine ⟨before, after, rfl, misplaced, fun earlier w later isBefore => ?_⟩
          exact getLast?_cons_or u earlier ▸ first (u :: earlier) w later (congrArg _ isBefore)

theorem firstMisplaced_iff : FirstMisplaced tokens t ↔ strayComma? none tokens = some t := by
  simp only [strayComma?_eq_some_iff, Option.or_none, FirstMisplaced]

theorem noneMisplaced_iff : NoneMisplaced tokens ↔ strayComma? none tokens = none := by
  constructor
  · intro noneMisplaced
    by_contra isSome
    obtain ⟨t, found⟩ := Option.ne_none_iff_exists'.1 isSome
    obtain ⟨before, after, whole, misplaced, -⟩ := firstMisplaced_iff.2 found
    exact noneMisplaced before t after whole misplaced
  · -- the first of all misplaced commas would be found
    intro isNone before t after whole misplaced
    induction isLength : before.length using Nat.strong_induction_on
      generalizing before t after with
    | h length ih =>
      refine absurd (firstMisplaced_iff.1 ⟨before, after, whole, misplaced, ?_⟩) (by simp [isNone])
      rintro earlier u later rfl
      intro misplaced'
      exact ih earlier.length (by simp [← isLength]) earlier u (later ++ t :: after)
        (by simp [whole]) misplaced' rfl

/-! ## The first operand that is refused -/

/-- The token is an operand that is refused. -/
def Token.Refused (t : Token) (e : OperandError) : Prop :=
  t.kind = .operand ∧ Operand.Refused (Text.trimChars t.text) e

/-- The first operand of all that is refused, and where the mnemonic of its command is: between the
two there are operands and commas only. -/
def FirstRefused (tokens : List Token) (position : Position) (e : OperandError) : Prop :=
  ∃ before m between t after, tokens = before ++ m :: (between ++ t :: after) ∧
    m.kind = .mnemonic ∧ m.position = position ∧
    (∀ u ∈ between, u.kind = .comma ∨ u.kind = .operand) ∧ t.Refused e ∧
    ∀ u ∈ before ++ between, ∀ e', ¬ u.Refused e'

theorem refused_iff (isOperand : t.kind = .operand) :
    t.Refused e ↔ operandFailure? (String.ofList t.text) = some e := by
  rw [operandFailure?, failure?_eq_some_iff, Operand.ofText_eq_error_iff, Text.trim,
    String.toList_ofList, String.toList_ofList]
  exact and_iff_right isOperand

/-- The same for tokens that follow, in a command with its mnemonic at the position. -/
def RefusedBehind (tokens : List Token) (e : OperandError) : Prop :=
  ∃ between t after, tokens = between ++ t :: after ∧
    (∀ u ∈ between, u.kind = .comma ∨ u.kind = .operand) ∧ t.Refused e ∧
    ∀ u ∈ between, ∀ e', ¬ u.Refused e'

/-- In front of the tokens there is another one that is not refused. -/
theorem firstRefused_cons {rest : List Token} (accepted : ∀ e', ¬ t.Refused e') :
    FirstRefused (t :: rest) position e ↔
      (t.kind = .mnemonic ∧ t.position = position ∧ RefusedBehind rest e) ∨
        FirstRefused rest position e := by
  constructor
  · rintro ⟨_ | ⟨v, before⟩, m, between, u, after, whole, isMnemonic, isPosition, inside, refused,
      first⟩
    · obtain ⟨rfl, rfl⟩ := List.cons.inj whole
      exact Or.inl ⟨isMnemonic, isPosition, between, u, after, rfl, inside, refused, first⟩
    · obtain ⟨rfl, rfl⟩ := List.cons.inj whole
      exact Or.inr ⟨before, m, between, u, after, rfl, isMnemonic, isPosition, inside, refused,
        fun w member => first w (List.mem_cons_of_mem _ member)⟩
  · rintro (⟨isMnemonic, isPosition, between, u, after, rfl, inside, refused, first⟩ |
      ⟨before, m, between, u, after, rfl, isMnemonic, isPosition, inside, refused, first⟩)
    · exact ⟨[], t, between, u, after, rfl, isMnemonic, isPosition, inside, refused, first⟩
    · exact ⟨t :: before, m, between, u, after, rfl, isMnemonic, isPosition, inside, refused,
        List.forall_mem_cons.2 ⟨accepted, first⟩⟩

theorem refusedBehind_cons {rest : List Token} (accepted : ∀ e', ¬ t.Refused e') :
    RefusedBehind (t :: rest) e ↔
      (t.kind = .comma ∨ t.kind = .operand) ∧ RefusedBehind rest e := by
  constructor
  · rintro ⟨_ | ⟨v, between⟩, u, after, whole, inside, refused, first⟩
    · obtain ⟨rfl, rfl⟩ := List.cons.inj whole
      exact absurd refused (accepted e)
    · obtain ⟨rfl, rfl⟩ := List.cons.inj whole
      obtain ⟨here, further⟩ := List.forall_mem_cons.1 inside
      exact ⟨here, between, u, after, rfl, further, refused, (List.forall_mem_cons.1 first).2⟩
  · rintro ⟨here, between, u, after, rfl, further, refused, first⟩
    exact ⟨t :: between, u, after, rfl, List.forall_mem_cons.2 ⟨here, further⟩, refused,
      List.forall_mem_cons.2 ⟨accepted, first⟩⟩

/-- A refused operand at the front is the first one, and stands in the command that is going on. -/
theorem refused_cons (rest : List Token) (position : Position) (e : OperandError)
    {e' : OperandError} (refused : t.Refused e') :
    (RefusedBehind (t :: rest) e ↔ e' = e) ∧ ¬ FirstRefused (t :: rest) position e := by
  have unique {e : OperandError} (other : t.Refused e) : e' = e := by
    have same := (refused_iff refused.1).1 refused
    rw [(refused_iff refused.1).1 other] at same
    exact (Option.some.inj same).symm
  refine ⟨⟨?_, ?_⟩, ?_⟩
  · rintro ⟨_ | ⟨v, between⟩, u, after, whole, -, other, first⟩
    · obtain ⟨rfl, rfl⟩ := List.cons.inj whole
      exact unique other
    · obtain ⟨rfl, rfl⟩ := List.cons.inj whole
      exact absurd refused (first _ List.mem_cons_self e')
  · rintro rfl
    exact ⟨[], t, rest, rfl, by simp, refused, by simp⟩
  · rintro ⟨_ | ⟨v, before⟩, m, between, u, after, whole, isMnemonic, -, -, -, first⟩
    · obtain ⟨rfl, rfl⟩ := List.cons.inj whole
      rw [refused.1] at isMnemonic
      contradiction
    · obtain ⟨rfl, rfl⟩ := List.cons.inj whole
      exact first _ List.mem_cons_self e' refused

/-- What `refusal?` finds is the first operand that is refused: one of a command that is going on,
or one of a command further on. -/
theorem refusal?_eq_some_iff {last : TokenKind} (linked : Linked last tokens)
    {start : Position} : refusal? start tokens = some (position, e) ↔
      (last ∈ [TokenKind.mnemonic, .comma, .operand] ∧ start = position ∧
        RefusedBehind tokens e) ∨ FirstRefused tokens position e := by
  induction tokens generalizing last start with
  | nil => simp [refusal?, RefusedBehind, FirstRefused]
  | cons t rest ih =>
    by_cases isRefused : ∃ e', t.Refused e'
    · obtain ⟨e', refused⟩ := isRefused
      have inCommand : last ∈ [TokenKind.mnemonic, .comma, .operand] := by
        have inside := linked.1
        rw [refused.1] at inside
        revert inside
        cases last <;> decide
      obtain ⟨behind, notFirst⟩ := refused_cons rest position e refused
      rw [refusal?_operand refused.1, (refused_iff refused.1).1 refused, behind]
      simp [inCommand, notFirst]
    · have accepted : ∀ e', ¬ t.Refused e' := fun e' refused => isRefused ⟨e', refused⟩
      rw [firstRefused_cons accepted, refusedBehind_cons accepted]
      by_cases isMnemonic : t.kind = .mnemonic
      · rw [refusal?_mnemonic isMnemonic, ih linked.2]
        simp [isMnemonic]
      · have same : refusal? start (t :: rest) = refusal? start rest := by
          by_cases isOperand : t.kind = .operand
          · have noFailure : operandFailure? (String.ofList t.text) = none := by
              by_contra isSome
              obtain ⟨e', failed⟩ := Option.ne_none_iff_exists'.1 isSome
              exact accepted e' ((refused_iff isOperand).2 failed)
            rw [refusal?_operand isOperand, noFailure]
            rfl
          · exact refusal?_of_kind isMnemonic isOperand start rest
        have goesOn : t.kind ∈ [TokenKind.mnemonic, .comma, .operand] ↔
            last ∈ [TokenKind.mnemonic, .comma, .operand] ∧
              (t.kind = .comma ∨ t.kind = .operand) := by
          have inside := linked.1
          revert inside isMnemonic
          cases last <;> cases t.kind <;> decide
        rw [same, ih linked.2, goesOn]
        simp only [isMnemonic, false_and, false_or]
        tauto

theorem firstRefused_iff (linked : Linked .newline tokens) {start : Position} :
    FirstRefused tokens position e ↔ refusal? start tokens = some (position, e) := by
  rw [refusal?_eq_some_iff linked]
  simp

end Source

namespace Program

open Source

variable {cs : List Char} {tokens : List Token} {p : Progress}

/-- The error for which a source is refused. Text that cannot be cut comes before all else, and a
misplaced comma before a refused operand, wherever they stand; of several errors of a kind it is the
first. The source is taken with a line break at its end. -/
inductive Rejects (cs : List Char) : SyntaxError → Prop
  | unreadable {tokens : List Token} {p : Progress} :
    Reads (.start (completed cs)) tokens p → p.Stuck → Rejects cs (.unreadable p.position p.rest)
  | misplaced {tokens : List Token} {p : Progress} {t : Token} :
    Reads (.start (completed cs)) tokens p → p.rest = [] → FirstMisplaced tokens t →
    Rejects cs (.misplaced t)
  | operand {tokens : List Token} {p : Progress} {position : Position} {e : OperandError} :
    Reads (.start (completed cs)) tokens p → p.rest = [] → NoneMisplaced tokens →
    FirstRefused tokens position e → Rejects cs (.operand position e)

theorem linked_of_reads (reads : Reads (.start cs) tokens p) : Linked .newline tokens :=
  reads.linked (show (Progress.start cs).After .newline from rfl)

/-- Lines can be read where the source can be cut and no comma is misplaced. -/
theorem readLines_eq_ok_iff : (∃ lines, readLines cs = .ok lines) ↔
    ∃ tokens p, Reads (.start (completed cs)) tokens p ∧ p.rest = [] ∧ NoneMisplaced tokens := by
  constructor
  · rintro ⟨lines, read⟩
    unfold readLines at read
    split at read
    · contradiction
    · next tokens isCut =>
      split at read
      · contradiction
      · next lines' grouped =>
        obtain ⟨p, atEnd, reads⟩ := tokens_eq_ok_iff.1 isCut
        have same := failure_splitLines none (linked_of_reads reads) (by simp)
        rw [grouped] at same
        exact ⟨tokens, p, reads, atEnd, noneMisplaced_iff.2 same.symm⟩
  · rintro ⟨tokens, p, reads, atEnd, placed⟩
    have same := failure_splitLines none (linked_of_reads reads) (by simp)
    rw [noneMisplaced_iff.1 placed, failure?_eq_none_iff] at same
    obtain ⟨lines, grouped⟩ := same
    exact ⟨lines, by simp only [readLines, tokens_eq_ok_iff.2 ⟨p, atEnd, reads⟩, grouped]⟩

/-- What reading does to a source that can be cut. -/
theorem failure_read_of_reads (reads : Reads (.start (completed cs)) tokens p)
    (atEnd : p.rest = []) : failure? (read cs) =
      ((strayComma? none tokens).map SyntaxError.misplaced).or
        ((refusal? ⟨1, 1⟩ tokens).map fun (position, e) => .operand position e) := by
  have linked := linked_of_reads reads
  have isCut := tokens_eq_ok_iff.2 ⟨p, atEnd, reads⟩
  have grouping := failure_splitLines none linked (by simp)
  unfold Program.read readLines
  rw [isCut]
  simp only [bind, Except.bind]
  cases grouped : (splitLines tokens).mapM Line.ofTokens with
  | error t =>
    rw [grouped] at grouping
    rw [← grouping]
    rfl
  | ok lines =>
    rw [grouped] at grouping
    have reading := failure_items linked grouped ⟨1, 1⟩
    rw [← grouping, ← reading]
    simp only [readItems]
    cases lines.mapM Line.items with
    | error e => rfl
    | ok items => rfl

/-- Reading fails with the error for which the source is refused. -/
theorem read_eq_error_iff {e : SyntaxError} : read cs = .error e ↔ Rejects cs e := by
  constructor
  · intro failed
    cases isCut : Source.tokens (completed cs) with
    | error stop =>
      obtain ⟨tokens, p, reads, stuck, rfl⟩ := tokens_eq_error_iff.1 isCut
      simp only [Program.read, readLines, isCut, bind, Except.bind] at failed
      cases failed
      exact .unreadable reads stuck
    | ok tokens =>
      obtain ⟨p, atEnd, reads⟩ := tokens_eq_ok_iff.1 isCut
      have found := failure_read_of_reads reads atEnd
      rw [failed, failure?_error] at found
      cases stray : strayComma? none tokens with
      | some t =>
        rw [stray] at found
        cases found
        exact .misplaced reads atEnd (firstMisplaced_iff.2 stray)
      | none =>
        rw [stray, Option.map_none, Option.none_or] at found
        obtain ⟨⟨position, e⟩, refused, rfl⟩ := Option.map_eq_some_iff.1 found.symm
        exact .operand reads atEnd (noneMisplaced_iff.2 stray)
          ((firstRefused_iff (linked_of_reads reads)).2 refused)
  · rintro (⟨reads, stuck⟩ | ⟨reads, atEnd, misplaced⟩ | ⟨reads, atEnd, placed, refused⟩)
    · simp only [Program.read, readLines, tokens_eq_error_iff.2 ⟨_, _, reads, stuck, rfl⟩, bind,
        Except.bind]
    · rw [← failure?_eq_some_iff, failure_read_of_reads reads atEnd, firstMisplaced_iff.1 misplaced]
      rfl
    · rw [← failure?_eq_some_iff, failure_read_of_reads reads atEnd, noneMisplaced_iff.1 placed,
        (firstRefused_iff (linked_of_reads reads)).1 refused]
      rfl

/-- The parser refuses exactly three kinds of text. It fails for the error of `Rejects` and for
nothing else, and reports where that error is and what it is. The line grammar accepts every
sequence of tokens that has no misplaced comma. -/
theorem parse_refuses (name source : String) :
    (∀ m, parse name source = .error m ↔ ∃ e, Rejects source.toList e ∧
      m = ⟨name, e.position.line, e.position.column, e.reason⟩) ∧
    ((∃ lines, readLines source.toList = .ok lines) ↔ ∃ tokens p,
      Reads (.start (completed source.toList)) tokens p ∧ p.rest = [] ∧ NoneMisplaced tokens) := by
  refine ⟨fun m => ?_, readLines_eq_ok_iff⟩
  simp only [← read_eq_error_iff]
  unfold parse
  cases read source.toList with
  | ok program => simp
  | error e => simp [eq_comm]

/-- The misplaced comma is reported, though an operand above it is refused. -/
example : parse "bad.s" "\taddu $99,$2,$3\n\tli $2,,3\n" =
    .error ⟨"bad.s", 2, 7, "unexpected token \",\" (expected <eol>)"⟩ := by
  decide +kernel

end Program

end MipsFlow
