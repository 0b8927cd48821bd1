import Mathlib.Data.List.TakeWhile
import MipsFlow.Proofs.OperandTexts

/-!
# How a source is cut

`Cuts mode position cs tokens` is the relation behind `Source.cut`, without its count of steps: in
the given mode the text `cs` is cut into `tokens`, the first of them at `position`. Every token has
a text of its kind (`Cuts.isToken`). In the other direction there is a lemma for each kind, which
puts a text of that kind in front of a source that cannot prolong it.

Directives need some care. Their quoted strings may contain any of the characters that end one, and
a directive whose first word has a colon behind it begins with a label instead.
-/

namespace MipsFlow.Source

variable {mode : Mode} {position : Position} {cs text rest bs : List Char} {kind : TokenKind}
  {tokens : List Token} {quoted : Bool}

/-! ## Runs -/

theorem splitRun_append {property : Char → Bool} (run : ∀ c ∈ text, property c = true)
    (stops : ∀ c ∈ rest.head?, property c = false) :
    splitRun property (text ++ rest) = (text, rest) := by
  unfold splitRun
  rw [List.takeWhile_append_of_pos run, List.dropWhile_append_of_pos run]
  cases rest with
  | nil => simp
  | cons c rest => simp [stops c rfl]

theorem splitRun_eq {property : Char → Bool} (split : splitRun property cs = (text, rest)) :
    cs = text ++ rest ∧ (∀ c ∈ text, property c = true) ∧
      ∀ c ∈ rest.head?, property c = false := by
  obtain ⟨rfl, rfl⟩ := Prod.mk.inj split
  refine ⟨List.takeWhile_append_dropWhile.symm, fun c => List.mem_takeWhile_imp, ?_⟩
  intro c isHead
  have found := List.head?_dropWhile_not property cs
  rw [Option.mem_def.1 isHead] at found
  simpa using found

/-! ## Quoted strings -/

/-- Every quoted string closes on its line, and there is neither a line break nor a hash sign
outside of them. The text begins inside of one if `quoted`. -/
inductive WellQuoted : Bool → List Char → Prop
  | nil : WellQuoted false []
  | plain {c : Char} {cs : List Char} : c ≠ '\n' → c ≠ '#' → c ≠ '"' → WellQuoted false cs →
    WellQuoted false (c :: cs)
  | opening {cs : List Char} : WellQuoted true cs → WellQuoted false ('"' :: cs)
  | inner {c : Char} {cs : List Char} : c ≠ '\n' → c ≠ '"' → c ≠ '\\' → WellQuoted true cs →
    WellQuoted true (c :: cs)
  | hidden {c : Char} {cs : List Char} : c ≠ '\n' → WellQuoted true cs →
    WellQuoted true ('\\' :: c :: cs)
  | closing {cs : List Char} : WellQuoted false cs → WellQuoted true ('"' :: cs)

namespace WellQuoted

theorem append (well : WellQuoted quoted text) (further : WellQuoted false bs) :
    WellQuoted quoted (text ++ bs) := by
  induction well with
  | nil => exact further
  | plain noBreak noHash noQuote _ ih => exact .plain noBreak noHash noQuote ih
  | opening _ ih => exact .opening ih
  | inner noBreak noQuote noSlash _ ih => exact .inner noBreak noQuote noSlash ih
  | hidden noBreak _ ih => exact .hidden noBreak ih
  | closing _ ih => exact .closing ih

/-- A quoted string that has begun has its closing quote still to come. -/
theorem quote_mem (well : WellQuoted quoted text) (inside : quoted = true) : '"' ∈ text := by
  induction well with
  | nil | plain | opening => contradiction
  | inner _ _ _ _ ih => exact List.mem_cons_of_mem _ (ih inside)
  | hidden _ _ ih => exact List.mem_cons_of_mem _ (List.mem_cons_of_mem _ (ih inside))
  | closing => exact List.mem_cons_self

/-- Blanks at the end are not quoted, so the text without them is well quoted too. -/
theorem of_append_blanks (well : WellQuoted quoted cs) (whole : cs = text ++ bs)
    (blanks : ∀ c ∈ bs, Text.isBlank c = true) : WellQuoted quoted text := by
  have notQuoted {quoted : Bool} {bs : List Char} (well : WellQuoted quoted bs)
      (blanks : ∀ c ∈ bs, Text.isBlank c = true) : quoted = false := by
    by_contra isQuoted
    exact absurd (blanks _ (well.quote_mem (eq_true_of_ne_false isQuoted))) (by decide)
  induction well generalizing text with
  | nil =>
    obtain ⟨rfl, -⟩ := List.append_eq_nil_iff.1 whole.symm
    exact .nil
  | plain noBreak noHash noQuote _ ih =>
    cases text with
    | nil => exact .nil
    | cons _ text =>
      obtain ⟨rfl, rest⟩ := List.cons.inj whole
      exact .plain noBreak noHash noQuote (ih rest)
  | opening _ ih =>
    cases text with
    | nil => exact .nil
    | cons _ text =>
      obtain ⟨rfl, rest⟩ := List.cons.inj whole
      exact .opening (ih rest)
  | inner noBreak noQuote noSlash well ih =>
    cases text with
    | nil =>
      have quoted := notQuoted (.inner noBreak noQuote noSlash well) (whole ▸ blanks)
      contradiction
    | cons _ text =>
      obtain ⟨rfl, rest⟩ := List.cons.inj whole
      exact .inner noBreak noQuote noSlash (ih rest)
  | hidden noBreak well ih =>
    rcases text with _ | ⟨_, _ | ⟨_, text⟩⟩
    · have quoted := notQuoted (.hidden noBreak well) (whole ▸ blanks)
      contradiction
    · obtain ⟨-, rfl⟩ := List.cons.inj whole
      have quoted := notQuoted well (List.forall_mem_cons.1 blanks).2
      contradiction
    · simp only [List.cons_append, List.cons.injEq] at whole
      obtain ⟨rfl, rfl, behind⟩ := whole
      exact .hidden noBreak (ih behind)
  | closing well ih =>
    cases text with
    | nil =>
      have quoted := notQuoted (.closing well) (whole ▸ blanks)
      contradiction
    | cons _ text =>
      obtain ⟨rfl, rest⟩ := List.cons.inj whole
      exact .closing (ih rest)

theorem closesString (well : WellQuoted quoted text) (inside : quoted = true)
    (rest : List Char) : closesString (text ++ rest) = true := by
  induction well with
  | nil | plain | opening => contradiction
  | @inner c cs noBreak noQuote noSlash _ ih =>
    rw [List.cons_append, Source.closesString.eq_2 _ _ fun _ _ isSlash => absurd isSlash noSlash]
    simp [noBreak, ih inside]
  | hidden noBreak _ ih => simp [Source.closesString, noBreak, ih inside]
  | closing => simp [Source.closesString]

/-- A well quoted text is taken for a directive as a whole. -/
theorem directiveRest (well : WellQuoted quoted text)
    (stops : ∀ c ∈ rest.head?, c = '\n' ∨ c = '#') :
    directiveRest quoted (text ++ rest) = (text, rest) := by
  induction well with
  | nil =>
    cases rest with
    | nil => rfl
    | cons c rest =>
      have ends := stops c rfl
      simp only [List.nil_append, Source.directiveRest]
      exact if_pos (ends.imp_right Or.inl)
  | plain noBreak noHash noQuote _ ih =>
    simp [Source.directiveRest, noBreak, noHash, noQuote, ih]
  | opening well ih => simp [Source.directiveRest, well.closesString rfl rest, ih]
  | @inner c cs noBreak noQuote noSlash _ ih =>
    rw [List.cons_append, Source.directiveRest.eq_2 _ _ fun _ _ isSlash => absurd isSlash noSlash]
    simp [noQuote, ih]
  | hidden _ _ ih => simp [Source.directiveRest, ih]
  | closing _ ih => simp [Source.directiveRest, ih]

end WellQuoted

/-- What is taken for a directive is well quoted. -/
theorem wellQuoted_of_directiveRest (split : directiveRest quoted cs = (text, rest))
    (closes : quoted = true → closesString cs = true) :
    WellQuoted quoted text ∧ cs = text ++ rest := by
  fun_induction directiveRest quoted cs generalizing text rest with
  | case1 c cs text' rest' further ih =>
    obtain ⟨rfl, rfl⟩ := Prod.mk.inj split
    have closes := closes rfl
    simp only [closesString, Bool.and_eq_true, decide_eq_true_eq] at closes
    obtain ⟨well, rfl⟩ := ih further fun _ => closes.2
    exact ⟨.hidden closes.1 well, rfl⟩
  | case2 c cs notHidden text' rest' further ih =>
    obtain ⟨rfl, rfl⟩ := Prod.mk.inj split
    have closes := closes rfl
    rw [closesString.eq_2 _ _ notHidden] at closes
    by_cases isQuote : c = '"'
    · subst isQuote
      obtain ⟨well, rfl⟩ := ih further fun isQuoted => by contradiction
      exact ⟨.closing well, rfl⟩
    · simp only [isQuote, decide_false, Bool.false_or, Bool.and_eq_true,
        decide_eq_true_eq] at closes
      obtain ⟨well, rfl⟩ := ih further fun _ => closes.2
      have noSlash : c ≠ '\\' := by
        rintro rfl
        cases whole : text' ++ rest' with
        | nil =>
          rw [whole] at closes
          exact absurd closes.2 (by decide)
        | cons d ds => exact notHidden d ds rfl whole
      simp only [isQuote, ne_eq, not_false_eq_true, decide_true] at well
      exact ⟨.inner closes.1 isQuote noSlash well, rfl⟩
  | case3 c cs ends =>
    obtain ⟨rfl, rfl⟩ := Prod.mk.inj split
    exact ⟨.nil, rfl⟩
  | case4 c cs noEnd text' rest' further ih =>
    obtain ⟨rfl, rfl⟩ := Prod.mk.inj split
    simp only [not_or, not_and] at noEnd
    obtain ⟨noBreak, noHash, opens⟩ := noEnd
    by_cases isQuote : c = '"'
    · subst isQuote
      obtain ⟨well, rfl⟩ := ih further fun _ => by simpa using opens rfl
      exact ⟨.opening well, rfl⟩
    · obtain ⟨well, rfl⟩ := ih further fun isQuoted => by simp [isQuote] at isQuoted
      simp only [isQuote, decide_false] at well
      exact ⟨.plain noBreak noHash isQuote well, rfl⟩
  | case5 quoted =>
    obtain ⟨rfl, rfl⟩ := Prod.mk.inj split
    cases quoted with
    | false => exact ⟨.nil, rfl⟩
    | true => exact absurd (closes rfl) (by decide)

/-! ## Kinds of texts -/

/-- No label begins the text: its first run of label characters has no colon behind it. -/
def LabelFree (cs : List Char) : Prop := (cs.dropWhile isLabelChar).head? ≠ some ':'

/-- The text of a directive. -/
structure IsDirective (cs : List Char) : Prop where
  shape : ∃ c rest, cs = '.' :: c :: rest ∧ (isLetter c = true ∨ c = '_') ∧ WellQuoted false rest
  labelFree : LabelFree cs

/-- The text of a mnemonic. -/
def IsMnemonic (cs : List Char) : Prop :=
  ∃ c rest, cs = c :: rest ∧ isLetter c = true ∧ ∀ d ∈ rest, isMnemonicChar d = true

/-- The name of a label. -/
structure IsLabelName (cs : List Char) : Prop where
  nonempty : cs ≠ []
  chars : ∀ c ∈ cs, isLabelChar c = true

/-- The text is one of the given kind. -/
def IsToken : TokenKind → List Char → Prop
  | .comment, cs => ∃ text, cs = '#' :: text ∧ '\n' ∉ text
  | .newline, cs => cs = ['\n']
  | .label, cs => ∃ name, cs = name ++ [':'] ∧ IsLabelName name
  | .directive, cs => IsDirective cs
  | .mnemonic, cs => IsMnemonic cs
  | .comma, cs => cs = [',']
  | .operand, cs => cs ≠ [] ∧ ∀ c ∈ cs, continuesOperand c = true

theorem LabelFree.of_append (free : LabelFree (text ++ bs)) : LabelFree text := by
  intro isColon
  refine free ?_
  obtain ⟨behind, rest⟩ := List.head?_eq_some_iff.1 isColon
  have nonempty : (text.dropWhile isLabelChar).isEmpty = false := by rw [rest]; rfl
  rw [List.dropWhile_append, nonempty, rest]
  rfl

theorem LabelFree.append (free : LabelFree text)
    (stops : ∀ c ∈ bs.head?, isLabelChar c = false ∧ c ≠ ':') : LabelFree (text ++ bs) := by
  unfold LabelFree at free ⊢
  rw [List.dropWhile_append]
  split
  · cases bs with
    | nil => simp
    | cons c bs =>
      obtain ⟨noLabelChar, noColon⟩ := stops c rfl
      simpa [noLabelChar] using noColon
  · next nonempty =>
    rwa [List.head?_append_of_ne_nil _ (by simpa using nonempty)]

theorem isLabelChar_of_isMnemonicChar {c : Char} (isMnemonic : isMnemonicChar c = true) :
    isLabelChar c = true := by
  simp only [isMnemonicChar, isLabelChar, Bool.or_eq_true] at isMnemonic ⊢
  tauto

theorem isLabelChar_of_isLetter {c : Char} (letter : isLetter c = true) :
    isLabelChar c = true := by
  simp only [isLetter] at letter
  simp [isLabelChar, Char.isAlphanum, letter]

theorem IsMnemonic.isLabelChar (mnemonic : IsMnemonic cs) :
    ∀ c ∈ cs, isLabelChar c = true := by
  obtain ⟨c, rest, rfl, letter, chars⟩ := mnemonic
  exact List.forall_mem_cons.2 ⟨isLabelChar_of_isLetter letter, fun d member =>
    isLabelChar_of_isMnemonicChar (chars d member)⟩

/-- Blanks may be taken off the end of a directive. -/
theorem IsDirective.of_append_blanks (directive : IsDirective (text ++ bs))
    (blanks : ∀ c ∈ bs, Text.isBlank c = true) : IsDirective text := by
  obtain ⟨⟨c, rest, whole, start, well⟩, free⟩ := directive
  have solid : Text.isBlank c = false := by
    rcases start with letter | rfl
    · exact Text.isBlank_of_isAlphanum (by simpa [isLetter, Char.isAlphanum] using Or.inl letter)
    · decide
  rcases text with _ | ⟨_, _ | ⟨_, text⟩⟩
  · rw [List.nil_append] at whole
    exact absurd (blanks '.' (whole ▸ List.mem_cons_self)) (by decide)
  · simp only [List.cons_append, List.nil_append, List.cons.injEq] at whole
    have blank := blanks c (whole.2 ▸ List.mem_cons_self)
    rw [solid] at blank
    contradiction
  · simp only [List.cons_append, List.cons.injEq] at whole
    obtain ⟨rfl, rfl, rfl⟩ := whole
    exact ⟨⟨_, _, rfl, start, well.of_append_blanks rfl blanks⟩, free.of_append⟩

/-- Tabs may be put at the end of a directive. -/
theorem IsDirective.append_tabs (directive : IsDirective text) (tabs : ∀ c ∈ bs, c = '\t') :
    IsDirective (text ++ bs) := by
  obtain ⟨⟨c, rest, rfl, start, well⟩, free⟩ := directive
  have wellTabs {bs : List Char} (tabs : ∀ c ∈ bs, c = '\t') : WellQuoted false bs := by
    induction bs with
    | nil => exact .nil
    | cons c bs ih =>
      obtain ⟨rfl, rest⟩ := List.forall_mem_cons.1 tabs
      exact .plain (by decide) (by decide) (by decide) (ih rest)
  refine ⟨⟨c, rest ++ bs, rfl, start, well.append (wellTabs tabs)⟩, free.append fun c isHead => ?_⟩
  rw [tabs c (List.mem_of_mem_head? isHead)]
  decide

/-! ## What each rule splits off -/

theorem gap?_eq_some (split : gap? cs = some (text, rest)) :
    splitRun isGap cs = (text, rest) ∧ text ≠ [] := by
  unfold gap? at split
  split at split
  · contradiction
  · next nonempty =>
    cases split
    exact ⟨rfl, fun isEmpty => nonempty _ (Prod.ext isEmpty rfl)⟩

theorem comment?_eq_some (split : comment? cs = some (text, rest)) :
    ∃ cs' run, cs = '#' :: cs' ∧ splitRun (· ≠ '\n') cs' = (run, rest) ∧ text = '#' :: run := by
  unfold comment? at split
  split at split
  · cases split
    exact ⟨_, _, rfl, rfl, rfl⟩
  · contradiction

theorem newline?_eq_some (split : newline? cs = some (text, rest)) :
    cs = '\n' :: rest ∧ text = ['\n'] := by
  unfold newline? at split
  split at split
  · cases split
    exact ⟨rfl, rfl⟩
  · contradiction

theorem label?_eq_some (split : label? cs = some (text, rest)) :
    ∃ name, splitRun isLabelChar cs = (name, ':' :: rest) ∧ name ≠ [] ∧ text = name ++ [':'] := by
  unfold label? at split
  split at split
  · next c name _ isRun =>
    cases split
    exact ⟨c :: name, isRun, List.cons_ne_nil _ _, rfl⟩
  · contradiction

theorem directive?_eq_some (split : directive? cs = some (text, rest)) :
    ∃ c cs' run, cs = '.' :: c :: cs' ∧ (isLetter c = true ∨ c = '_') ∧
      directiveRest false cs' = (run, rest) ∧ text = '.' :: c :: run := by
  unfold directive? at split
  split at split
  · split at split
    · next start =>
      cases split
      exact ⟨_, _, _, rfl, start, rfl, rfl⟩
    · contradiction
  · contradiction

theorem mnemonic?_eq_some (split : mnemonic? cs = some (text, rest)) :
    ∃ c cs' run, cs = c :: cs' ∧ isLetter c = true ∧
      splitRun isMnemonicChar cs' = (run, rest) ∧ text = c :: run := by
  unfold mnemonic? at split
  split at split
  · split at split
    · next letter =>
      cases split
      exact ⟨_, _, _, rfl, letter, rfl, rfl⟩
    · contradiction
  · contradiction

theorem comma?_eq_some (split : comma? cs = some (text, rest)) :
    cs = ',' :: rest ∧ text = [','] := by
  unfold comma? at split
  split at split
  · cases split
    exact ⟨rfl, rfl⟩
  · contradiction

theorem operand?_eq_some (split : operand? cs = some (text, rest)) :
    ∃ c cs' run, cs = c :: cs' ∧ startsOperand c = true ∧
      splitRun continuesOperand cs' = (run, rest) ∧ text = c :: run := by
  unfold operand? at split
  split at split
  · split at split
    · next starts =>
      cases split
      exact ⟨_, _, _, rfl, starts, rfl, rfl⟩
    · contradiction
  · contradiction

/-! ## The next lexeme -/

/-- The lexeme begins the text, and is one of its kind. -/
structure Lexeme.Fits (lexeme : Lexeme) (cs : List Char) : Prop where
  whole : cs = lexeme.text ++ lexeme.rest
  nonempty : lexeme.text ≠ []
  isToken : ∀ kind, lexeme.kind = some kind → IsToken kind lexeme.text

theorem Lexeme.Fits.token {text rest : List Char} (whole : cs = text ++ rest) (nonempty : text ≠ [])
    (isToken : IsToken kind text) : Fits ⟨some kind, text, rest⟩ cs :=
  ⟨whole, nonempty, fun _ same => Option.some.inj same ▸ isToken⟩

theorem fits_of_gap? (split : gap? cs = some (text, rest)) : Lexeme.Fits ⟨none, text, rest⟩ cs := by
  obtain ⟨isRun, nonempty⟩ := gap?_eq_some split
  exact ⟨(splitRun_eq isRun).1, nonempty, fun _ isSome => by contradiction⟩

theorem fits_of_comment? (split : comment? cs = some (text, rest)) :
    Lexeme.Fits ⟨some .comment, text, rest⟩ cs := by
  obtain ⟨cs', run, rfl, isRun, rfl⟩ := comment?_eq_some split
  obtain ⟨whole, chars, -⟩ := splitRun_eq isRun
  refine .token (congrArg ('#' :: ·) whole) (List.cons_ne_nil _ _) ⟨_, rfl, fun member => ?_⟩
  simpa using chars _ member

theorem fits_of_newline? (split : newline? cs = some (text, rest)) :
    Lexeme.Fits ⟨some .newline, text, rest⟩ cs := by
  obtain ⟨rfl, rfl⟩ := newline?_eq_some split
  exact .token rfl (List.cons_ne_nil _ _) rfl

theorem fits_of_label? (split : label? cs = some (text, rest)) :
    Lexeme.Fits ⟨some .label, text, rest⟩ cs := by
  obtain ⟨name, isRun, nonempty, rfl⟩ := label?_eq_some split
  obtain ⟨whole, chars, -⟩ := splitRun_eq isRun
  exact .token (by simpa using whole) (by simp) ⟨name, rfl, nonempty, chars⟩

/-- Where the rule for labels does not apply, no label begins the text. -/
theorem labelFree_of_label? {c : Char} (isChar : isLabelChar c = true)
    (noLabel : label? (c :: cs) = none) : LabelFree (c :: cs) := by
  intro isColon
  obtain ⟨behind, rest⟩ := List.head?_eq_some_iff.1 isColon
  unfold label? splitRun at noLabel
  rw [rest, List.takeWhile_cons_of_pos isChar] at noLabel
  contradiction

theorem fits_of_directive? (noLabel : label? cs = none)
    (split : directive? cs = some (text, rest)) :
    Lexeme.Fits ⟨some .directive, text, rest⟩ cs := by
  obtain ⟨c, cs', run, rfl, start, isRest, rfl⟩ := directive?_eq_some split
  obtain ⟨well, whole⟩ := wellQuoted_of_directiveRest isRest fun isQuoted => by contradiction
  have free := labelFree_of_label? (by decide) noLabel
  rw [whole] at free
  refine .token (congrArg ('.' :: c :: ·) whole) (List.cons_ne_nil _ _)
    ⟨⟨c, _, rfl, start, well⟩, ?_⟩
  exact LabelFree.of_append (List.cons_append ▸ List.cons_append ▸ free)

theorem fits_of_mnemonic? (split : mnemonic? cs = some (text, rest)) :
    Lexeme.Fits ⟨some .mnemonic, text, rest⟩ cs := by
  obtain ⟨c, cs', run, rfl, letter, isRun, rfl⟩ := mnemonic?_eq_some split
  obtain ⟨whole, chars, -⟩ := splitRun_eq isRun
  exact .token (congrArg (c :: ·) whole) (List.cons_ne_nil _ _) ⟨c, _, rfl, letter, chars⟩

theorem fits_of_comma? (split : comma? cs = some (text, rest)) :
    Lexeme.Fits ⟨some .comma, text, rest⟩ cs := by
  obtain ⟨rfl, rfl⟩ := comma?_eq_some split
  exact .token rfl (List.cons_ne_nil _ _) rfl

theorem continuesOperand_of_startsOperand {c : Char} (starts : startsOperand c = true) :
    continuesOperand c = true := by
  simp only [startsOperand, continuesOperand, Bool.and_eq_true] at starts ⊢
  tauto

theorem fits_of_operand? (split : operand? cs = some (text, rest)) :
    Lexeme.Fits ⟨some .operand, text, rest⟩ cs := by
  obtain ⟨c, cs', run, rfl, starts, isRun, rfl⟩ := operand?_eq_some split
  obtain ⟨whole, chars, -⟩ := splitRun_eq isRun
  exact .token (congrArg (c :: ·) whole) (List.cons_ne_nil _ _) ⟨List.cons_ne_nil _ _,
    List.forall_mem_cons.2 ⟨continuesOperand_of_startsOperand starts, chars⟩⟩

theorem fits_of_lexeme? {k : Option TokenKind} {split : Option (List Char × List Char)}
    {lexeme : Lexeme} (next : lexeme? k split = some lexeme)
    (fits : ∀ text rest, split = some (text, rest) → Lexeme.Fits ⟨k, text, rest⟩ cs) :
    lexeme.Fits cs := by
  obtain ⟨⟨text, rest⟩, isSplit, rfl⟩ := Option.map_eq_some_iff.1 next
  exact fits text rest isSplit

/-- The next lexeme begins the text, and is one of its kind. -/
theorem fits_of_nextLexeme? {lexeme : Lexeme} (next : nextLexeme? mode cs = some lexeme) :
    lexeme.Fits cs := by
  cases mode with
  | line =>
    simp only [nextLexeme?, Option.orElse_eq_orElse, Option.orElse_eq_or, Option.or_eq_some_iff,
      Option.or_eq_none_iff] at next
    rcases next with (gap | ⟨-, comment | ⟨-, newline⟩⟩) |
      ⟨-, label | ⟨noLabel, directive | ⟨-, mnemonic⟩⟩⟩
    · exact fits_of_lexeme? gap fun _ _ => fits_of_gap?
    · exact fits_of_lexeme? comment fun _ _ => fits_of_comment?
    · exact fits_of_lexeme? newline fun _ _ => fits_of_newline?
    · exact fits_of_lexeme? label fun _ _ => fits_of_label?
    · exact fits_of_lexeme? directive fun _ _ =>
        fits_of_directive? (Option.map_eq_none_iff.1 noLabel)
    · exact fits_of_lexeme? mnemonic fun _ _ => fits_of_mnemonic?
  | operands =>
    simp only [nextLexeme?, Option.orElse_eq_orElse, Option.orElse_eq_or, Option.or_eq_some_iff,
      Option.or_eq_none_iff] at next
    rcases next with (gap | ⟨-, comment | ⟨-, newline⟩⟩) | ⟨-, comma | ⟨-, operand⟩⟩
    · exact fits_of_lexeme? gap fun _ _ => fits_of_gap?
    · exact fits_of_lexeme? comment fun _ _ => fits_of_comment?
    · exact fits_of_lexeme? newline fun _ _ => fits_of_newline?
    · exact fits_of_lexeme? comma fun _ _ => fits_of_comma?
    · exact fits_of_lexeme? operand fun _ _ => fits_of_operand?

/-! ## Putting a lexeme in front -/

theorem nextLexeme?_gap (mode : Mode) (nonempty : text ≠ []) (gaps : ∀ c ∈ text, isGap c = true)
    (stops : ∀ c ∈ rest.head?, isGap c = false) :
    nextLexeme? mode (text ++ rest) = some ⟨none, text, rest⟩ := by
  obtain ⟨c, text, rfl⟩ := List.exists_cons_of_ne_nil nonempty
  have gap : gap? (c :: text ++ rest) = some (c :: text, rest) := by
    unfold gap?
    rw [splitRun_append gaps stops]
  cases mode <;> simp only [nextLexeme?, gap] <;> rfl

theorem nextLexeme?_comment (mode : Mode) (noBreak : '\n' ∉ text)
    (stops : ∀ c ∈ rest.head?, c = '\n') :
    nextLexeme? mode ('#' :: text ++ rest) = some ⟨some .comment, '#' :: text, rest⟩ := by
  have comment : comment? ('#' :: text ++ rest) = some ('#' :: text, rest) := by
    have run : splitRun (· ≠ '\n') (text ++ rest) = (text, rest) :=
      splitRun_append (fun c member => decide_eq_true fun isBreak => noBreak (isBreak ▸ member))
        fun c isHead => by simpa using stops c isHead
    simp only [List.cons_append, comment?, run]
  have noGap : gap? ('#' :: text ++ rest) = none := rfl
  cases mode <;> simp only [nextLexeme?, noGap, comment] <;> rfl

theorem nextLexeme?_newline (mode : Mode) (rest : List Char) :
    nextLexeme? mode ('\n' :: rest) = some ⟨some .newline, ['\n'], rest⟩ := by
  cases mode <;> rfl

/-- None of the rules that the modes share applies to what begins with another character. -/
theorem gap?_of_head {c : Char} (noGap : isGap c = false) (cs : List Char) :
    gap? (c :: cs) = none := by
  simp [gap?, splitRun, noGap]

theorem comment?_of_head {c : Char} (noHash : c ≠ '#') (cs : List Char) :
    comment? (c :: cs) = none := by
  unfold comment?
  split
  · simp_all
  · rfl

theorem newline?_of_head {c : Char} (noBreak : c ≠ '\n') (cs : List Char) :
    newline? (c :: cs) = none := by
  unfold newline?
  split
  · simp_all
  · rfl

/-- At the start of a line. -/
theorem nextLexeme?_line {c : Char} (isChar : isLabelChar c = true) (cs : List Char) :
    nextLexeme? .line (c :: cs) =
      (lexeme? (some .label) (label? (c :: cs)) <|>
        lexeme? (some .directive) (directive? (c :: cs)) <|>
        lexeme? (some .mnemonic) (mnemonic? (c :: cs))) := by
  have noGap : isGap c = false := by
    by_contra isGap
    have gaps := eq_true_of_ne_false isGap
    simp only [Source.isGap, Bool.or_eq_true, decide_eq_true_eq] at gaps
    rcases gaps with (rfl | rfl) | rfl <;> contradiction
  have noHash : c ≠ '#' := by
    rintro rfl
    contradiction
  have noBreak : c ≠ '\n' := by
    rintro rfl
    contradiction
  simp only [nextLexeme?, gap?_of_head noGap, comment?_of_head noHash, newline?_of_head noBreak]
  rfl

theorem label?_append (name : IsLabelName text) (rest : List Char) :
    label? (text ++ ':' :: rest) = some (text ++ [':'], rest) := by
  obtain ⟨c, text, rfl⟩ := List.exists_cons_of_ne_nil name.nonempty
  unfold label?
  have stops : ∀ d ∈ (':' :: rest).head?, isLabelChar d = false := by
    rintro d ⟨⟩
    decide
  rw [splitRun_append name.chars stops]
  rfl

theorem label?_of_labelFree (free : LabelFree cs) : label? cs = none := by
  unfold label? splitRun
  split
  · next behind =>
    refine absurd ?_ free
    rw [(Prod.mk.inj behind).2]
    rfl
  · rfl

theorem nextLexeme?_label (name : IsLabelName text) (rest : List Char) :
    nextLexeme? .line (text ++ ':' :: rest) = some ⟨some .label, text ++ [':'], rest⟩ := by
  have label := label?_append name rest
  obtain ⟨c, text, rfl⟩ := List.exists_cons_of_ne_nil name.nonempty
  rw [List.cons_append] at label ⊢
  rw [nextLexeme?_line (name.chars c List.mem_cons_self), label]
  rfl

theorem nextLexeme?_directive (directive : IsDirective text)
    (stops : ∀ c ∈ rest.head?, c = '\n' ∨ c = '#') :
    nextLexeme? .line (text ++ rest) = some ⟨some .directive, text, rest⟩ := by
  have free := directive.labelFree
  obtain ⟨c, text, rfl, start, well⟩ := directive.shape
  have noLabel : label? ('.' :: c :: text ++ rest) = none := by
    refine label?_of_labelFree (free.append fun d isHead => ?_)
    rcases stops d isHead with rfl | rfl <;> decide
  have isDirective : directive? ('.' :: c :: text ++ rest) = some ('.' :: c :: text, rest) := by
    simp only [List.cons_append, directive?, if_pos start, well.directiveRest stops]
  rw [List.cons_append] at noLabel isDirective ⊢
  rw [nextLexeme?_line (by decide), noLabel, isDirective]
  rfl

theorem nextLexeme?_mnemonic (mnemonic : IsMnemonic text)
    (stops : ∀ c ∈ rest.head?, isLabelChar c = false ∧ c ≠ ':') :
    nextLexeme? .line (text ++ rest) = some ⟨some .mnemonic, text, rest⟩ := by
  have noLabel : label? (text ++ rest) = none := by
    refine label?_of_labelFree (LabelFree.append ?_ stops)
    simp [LabelFree, List.dropWhile_eq_nil_iff.2 mnemonic.isLabelChar]
  obtain ⟨c, text, rfl, letter, chars⟩ := mnemonic
  have noDirective : directive? (c :: text ++ rest) = none := by
    unfold directive?
    split
    · next isDot =>
      obtain ⟨rfl, -⟩ := List.cons.inj (List.cons_append.symm.trans isDot)
      contradiction
    · rfl
  have isMnemonic : mnemonic? (c :: text ++ rest) = some (c :: text, rest) := by
    have ends : ∀ d ∈ rest.head?, isMnemonicChar d = false := by
      intro d isHead
      by_contra isChar
      have isLabelChar := isLabelChar_of_isMnemonicChar (eq_true_of_ne_false isChar)
      rw [(stops d isHead).1] at isLabelChar
      contradiction
    simp only [List.cons_append, mnemonic?, if_pos letter, splitRun_append chars ends]
  rw [List.cons_append] at noLabel noDirective isMnemonic ⊢
  rw [nextLexeme?_line (isLabelChar_of_isLetter letter), noLabel, noDirective, isMnemonic]
  rfl

theorem nextLexeme?_comma (rest : List Char) :
    nextLexeme? .operands (',' :: rest) = some ⟨some .comma, [','], rest⟩ := rfl

/-- An operand that begins with no blank. -/
theorem nextLexeme?_operand (nonempty : text ≠ [])
    (head : ∀ c ∈ text.head?, Text.isBlank c = false)
    (continues : ∀ c ∈ text, continuesOperand c = true)
    (stops : ∀ c ∈ rest.head?, continuesOperand c = false) :
    nextLexeme? .operands (text ++ rest) = some ⟨some .operand, text, rest⟩ := by
  obtain ⟨c, text, rfl⟩ := List.exists_cons_of_ne_nil nonempty
  obtain ⟨here, further⟩ := List.forall_mem_cons.1 continues
  have solid := head c rfl
  have noBlank {d : Char} (blank : Text.isBlank d = true) : c ≠ d := by
    rintro rfl
    rw [solid] at blank
    contradiction
  simp only [continuesOperand, Bool.and_eq_true, decide_eq_true_eq] at here
  obtain ⟨⟨noComma, noHash⟩, noBreak⟩ := here
  have noTab : c ≠ '\t' := noBlank (by decide)
  have noFeed : c ≠ '\x0c' := noBlank (by decide)
  have noReturn : c ≠ '\r' := noBlank (by decide)
  have noSpace : c ≠ ' ' := noBlank (by decide)
  have noGap : isGap c = false := by simp [isGap, noTab, noReturn, noSpace]
  have notComma : comma? (c :: text ++ rest) = none := by
    unfold comma?
    split
    · simp_all
    · rfl
  have isOperand : operand? (c :: text ++ rest) = some (c :: text, rest) := by
    have starts : startsOperand c = true := by
      simp [startsOperand, noComma, noHash, noTab, noBreak, noFeed, noReturn, noSpace]
    simp only [List.cons_append, operand?, if_pos starts, splitRun_append further stops]
  rw [List.cons_append] at notComma isOperand ⊢
  simp only [nextLexeme?, gap?_of_head noGap, comment?_of_head noHash, newline?_of_head noBreak,
    notComma, isOperand]
  rfl

/-! ## Cutting -/

/-- The text is cut into the tokens, the first of them at the position. -/
inductive Cuts : Mode → Position → List Char → List Token → Prop
  | nil {mode : Mode} {position : Position} : Cuts mode position [] []
  | gap {mode : Mode} {position : Position} {cs text rest : List Char} {tokens : List Token} :
    nextLexeme? mode cs = some ⟨none, text, rest⟩ →
    Cuts mode (advance position none text) rest tokens → Cuts mode position cs tokens
  | token {mode : Mode} {position : Position} {kind : TokenKind} {cs text rest : List Char}
      {tokens : List Token} : nextLexeme? mode cs = some ⟨some kind, text, rest⟩ →
    Cuts (mode.after kind) (advance position kind text) rest tokens →
    Cuts mode position cs (⟨kind, text, position⟩ :: tokens)

theorem length_rest_lt {lexeme : Lexeme} (next : nextLexeme? mode cs = some lexeme) :
    lexeme.rest.length < cs.length := by
  obtain ⟨whole, nonempty, -⟩ := fits_of_nextLexeme? next
  have positive := List.length_pos_of_ne_nil nonempty
  rw [whole, List.length_append]
  omega

/-- A step for each character is enough. -/
theorem Cuts.cut (cuts : Cuts mode position cs tokens) {steps : Nat} (enough : cs.length ≤ steps) :
    cut steps mode position cs = .ok tokens := by
  induction cuts generalizing steps with
  | nil => cases steps <;> rfl
  | gap next _ ih =>
    have shorter := length_rest_lt next
    obtain ⟨steps, rfl⟩ : ∃ n, steps = n + 1 := ⟨steps - 1, by omega⟩
    rw [Source.cut.eq_3 _ _ _ _ fun isNil => by simp [isNil] at shorter, next]
    simp only [Mode.after, bind, Except.bind]
    rw [ih (by simp only at shorter; omega)]
    rfl
  | token next _ ih =>
    have shorter := length_rest_lt next
    obtain ⟨steps, rfl⟩ : ∃ n, steps = n + 1 := ⟨steps - 1, by omega⟩
    rw [Source.cut.eq_3 _ _ _ _ fun isNil => by simp [isNil] at shorter, next]
    simp only [bind, Except.bind]
    rw [ih (by simp only at shorter; omega)]
    rfl

theorem cuts_of_cut {steps : Nat} (isCut : Source.cut steps mode position cs = .ok tokens) :
    Cuts mode position cs tokens := by
  fun_induction Source.cut steps mode position cs generalizing tokens with
  | case1 =>
    cases isCut
    exact .nil
  | case2 => contradiction
  | case3 => contradiction
  | case4 steps mode position cs nonempty lexeme next ih =>
    obtain ⟨kind, text, rest⟩ := lexeme
    simp only [bind, Except.bind] at isCut
    split at isCut
    · contradiction
    · next further =>
      cases kind with
      | none =>
        cases isCut
        exact .gap next (ih further)
      | some kind =>
        cases isCut
        exact .token next (ih further)

theorem tokens_eq_ok : Source.tokens cs = .ok tokens ↔ Cuts .line ⟨1, 1⟩ cs tokens :=
  ⟨cuts_of_cut, fun cuts => cuts.cut (Nat.le_refl _)⟩

/-- Every token has a text of its kind. -/
theorem Cuts.isToken (cuts : Cuts mode position cs tokens) :
    ∀ t ∈ tokens, IsToken t.kind t.text := by
  induction cuts with
  | nil => exact fun t member => absurd member List.not_mem_nil
  | gap _ _ ih => exact ih
  | token next _ ih =>
    exact List.forall_mem_cons.2 ⟨(fits_of_nextLexeme? next).isToken _ rfl, ih⟩

end MipsFlow.Source
