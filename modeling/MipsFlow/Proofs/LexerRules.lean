import MipsFlow.Proofs.Tokens

/-!
# The rules of the lexer

Each kind of token has a pattern, a set of texts (`Describes`), and each mode has its rules in their
order (`Mode.rules`). `Takes` says what the lexer takes at a place: of the first rule that describes
some beginning of the text, the longest beginning that it describes. `nextLexeme?` computes just
this (`nextLexeme?_eq_some_iff`), and gives up where no rule describes any beginning
(`nextLexeme?_eq_none_iff`).

`Reads` strings such steps together. Cutting a source succeeds where they lead to its end, and fails
where they lead to a place that has no further step (`tokens_eq_error_iff`).
-/

namespace MipsFlow.Source

variable {mode : Mode} {position : Position} {cs text rest : List Char}
  {kind : Option TokenKind} {tokens : List Token}

/-! ## Patterns -/

/-- The texts that the rule for a kind of token describes; white space has no kind. Behind a dot and
a letter or underscore, the pattern of directives has quoted strings and characters that are no line
break, hash sign or quote. -/
def Describes : Option TokenKind → List Char → Prop
  | none, cs => cs ≠ [] ∧ ∀ c ∈ cs, isGap c = true
  | some .comment, cs => ∃ text, cs = '#' :: text ∧ ∀ c ∈ text, c ≠ '\n'
  | some .newline, cs => cs = ['\n']
  | some .label, cs => ∃ name, cs = name ++ [':'] ∧ name ≠ [] ∧ ∀ c ∈ name, isLabelChar c = true
  | some .directive, cs =>
    ∃ c text, cs = '.' :: c :: text ∧ (isLetter c = true ∨ c = '_') ∧ WellQuoted false text
  | some .mnemonic, cs =>
    ∃ c text, cs = c :: text ∧ isLetter c = true ∧ ∀ d ∈ text, isMnemonicChar d = true
  | some .comma, cs => cs = [',']
  | some .operand, cs =>
    ∃ c text, cs = c :: text ∧ startsOperand c = true ∧ ∀ d ∈ text, continuesOperand d = true

/-- The rules of a mode, in the order in which they are tried. -/
def Mode.rules : Mode → List (Option TokenKind)
  | .line =>
    [none, some .comment, some .newline, some .label, some .directive, some .mnemonic]
  | .operands => [none, some .comment, some .newline, some .comma, some .operand]

/-- The rule describes no beginning of the text. -/
def NoMatch (kind : Option TokenKind) (cs : List Char) : Prop :=
  ∀ text rest, cs = text ++ rest → ¬ Describes kind text

/-- The rule describes `text`, and no longer beginning of `cs`. -/
structure Longest (kind : Option TokenKind) (cs text rest : List Char) : Prop where
  whole : cs = text ++ rest
  describes : Describes kind text
  longest : ∀ text' rest', cs = text' ++ rest' → Describes kind text' →
    text'.length ≤ text.length

/-- In the mode, the lexer takes `text` from the beginning of `cs` by the rule for the kind: this is
the first rule that matches, and the longest match. -/
structure Takes (mode : Mode) (cs : List Char) (kind : Option TokenKind)
    (text rest : List Char) : Prop extends Longest kind cs text rest where
  first : ∃ earlier later, mode.rules = earlier ++ kind :: later ∧ ∀ k ∈ earlier, NoMatch k cs

/-! ## Each rule by itself -/

/-- The function that splits off the text of a token by its rule. -/
def split? : Option TokenKind → List Char → Option (List Char × List Char)
  | none => gap?
  | some .comment => comment?
  | some .newline => newline?
  | some .label => label?
  | some .directive => directive?
  | some .mnemonic => mnemonic?
  | some .comma => comma?
  | some .operand => operand?

/-- A run is no shorter than any beginning of such characters. -/
theorem length_le_splitRun {property : Char → Bool} {text' rest' : List Char}
    (isRun : splitRun property cs = (text, rest)) (whole : cs = text' ++ rest')
    (chars : ∀ c ∈ text', property c = true) : text'.length ≤ text.length := by
  obtain ⟨rfl, -⟩ := Prod.mk.inj isRun
  rw [whole, List.takeWhile_append_of_pos chars, List.length_append]
  exact Nat.le_add_right _ _

/-- A quoted beginning is no longer than what is taken for a directive. -/
theorem length_le_directiveRest {quoted : Bool} (well : WellQuoted quoted text) :
    text.length ≤ (directiveRest quoted (text ++ rest)).1.length := by
  induction well with
  | nil => exact Nat.zero_le _
  | plain noBreak noHash noQuote _ ih =>
    simpa [Source.directiveRest, noBreak, noHash, noQuote] using ih
  | opening well ih => simpa [Source.directiveRest, well.closesString rfl rest] using ih
  | @inner c cs noBreak noQuote noSlash _ ih =>
    rw [List.cons_append, Source.directiveRest.eq_2 _ _ fun _ _ isSlash => absurd isSlash noSlash]
    simpa [noQuote] using ih
  | hidden _ _ ih => simpa [Source.directiveRest] using ih
  | closing _ ih => simpa [Source.directiveRest] using ih

theorem longest_of_gap? (split : gap? cs = some (text, rest)) : Longest none cs text rest := by
  obtain ⟨isRun, nonempty⟩ := gap?_eq_some split
  obtain ⟨whole, chars, -⟩ := splitRun_eq isRun
  exact ⟨whole, ⟨nonempty, chars⟩, fun _ _ whole' ⟨_, chars'⟩ =>
    length_le_splitRun isRun whole' chars'⟩

theorem longest_of_comment? (split : comment? cs = some (text, rest)) :
    Longest (some .comment) cs text rest := by
  obtain ⟨cs', run, rfl, isRun, rfl⟩ := comment?_eq_some split
  obtain ⟨whole, chars, -⟩ := splitRun_eq isRun
  refine ⟨congrArg ('#' :: ·) whole, ⟨_, rfl, fun c member => by simpa using chars c member⟩, ?_⟩
  rintro _ rest' whole' ⟨text', rfl, chars'⟩
  have whole' : cs' = text' ++ rest' := (List.cons.inj whole').2
  exact Nat.succ_le_succ
    (length_le_splitRun isRun whole' fun c member => by simpa using chars' c member)

theorem longest_of_newline? (split : newline? cs = some (text, rest)) :
    Longest (some .newline) cs text rest := by
  obtain ⟨rfl, rfl⟩ := newline?_eq_some split
  exact ⟨rfl, rfl, fun _ _ _ isBreak => (congrArg List.length isBreak).le⟩

theorem longest_of_comma? (split : comma? cs = some (text, rest)) :
    Longest (some .comma) cs text rest := by
  obtain ⟨rfl, rfl⟩ := comma?_eq_some split
  exact ⟨rfl, rfl, fun _ _ _ isComma => (congrArg List.length isComma).le⟩

theorem longest_of_mnemonic? (split : mnemonic? cs = some (text, rest)) :
    Longest (some .mnemonic) cs text rest := by
  obtain ⟨c, cs', run, rfl, letter, isRun, rfl⟩ := mnemonic?_eq_some split
  obtain ⟨whole, chars, -⟩ := splitRun_eq isRun
  refine ⟨congrArg (c :: ·) whole, ⟨c, _, rfl, letter, chars⟩, ?_⟩
  rintro _ rest' whole' ⟨c', text', rfl, -, chars'⟩
  exact Nat.succ_le_succ (length_le_splitRun isRun (List.cons.inj whole').2 chars')

theorem longest_of_operand? (split : operand? cs = some (text, rest)) :
    Longest (some .operand) cs text rest := by
  obtain ⟨c, cs', run, rfl, starts, isRun, rfl⟩ := operand?_eq_some split
  obtain ⟨whole, chars, -⟩ := splitRun_eq isRun
  refine ⟨congrArg (c :: ·) whole, ⟨c, _, rfl, starts, chars⟩, ?_⟩
  rintro _ rest' whole' ⟨c', text', rfl, -, chars'⟩
  exact Nat.succ_le_succ (length_le_splitRun isRun (List.cons.inj whole').2 chars')

/-- The colon of a label is the first one: it is no label character. -/
theorem length_label_le {name name' rest' : List Char} (whole : name ++ ':' :: rest =
    name' ++ ':' :: rest') (chars : ∀ c ∈ name, isLabelChar c = true)
    (chars' : ∀ c ∈ name', isLabelChar c = true) : name'.length ≤ name.length := by
  have colon : isLabelChar ':' = false := by decide
  have taken := congrArg (List.takeWhile isLabelChar) whole
  rw [List.takeWhile_append_of_pos chars, List.takeWhile_append_of_pos chars'] at taken
  simp only [List.takeWhile_cons, colon, Bool.false_eq_true, if_false, List.append_nil] at taken
  exact taken ▸ le_rfl

theorem longest_of_label? (split : label? cs = some (text, rest)) :
    Longest (some .label) cs text rest := by
  obtain ⟨name, isRun, nonempty, rfl⟩ := label?_eq_some split
  obtain ⟨whole, chars, -⟩ := splitRun_eq isRun
  refine ⟨by simpa using whole, ⟨name, rfl, nonempty, chars⟩, ?_⟩
  rintro _ rest' whole' ⟨name', rfl, -, chars'⟩
  rw [whole, List.append_assoc] at whole'
  have shorter := length_label_le whole' chars chars'
  simpa using shorter

theorem longest_of_directive? (split : directive? cs = some (text, rest)) :
    Longest (some .directive) cs text rest := by
  obtain ⟨c, cs', run, rfl, start, isRest, rfl⟩ := directive?_eq_some split
  obtain ⟨well, whole⟩ := wellQuoted_of_directiveRest isRest fun isQuoted => by contradiction
  refine ⟨congrArg ('.' :: c :: ·) whole, ⟨c, _, rfl, start, well⟩, ?_⟩
  rintro _ rest' whole' ⟨c', text', rfl, -, well'⟩
  obtain ⟨rfl, rfl⟩ : c = c' ∧ cs' = text' ++ rest' := by simpa using whole'
  have shorter : text'.length ≤ (directiveRest false (text' ++ rest')).1.length :=
    length_le_directiveRest well'
  rw [isRest] at shorter
  simpa using shorter

/-- What a rule splits off is the longest beginning that it describes. -/
theorem longest_of_split? (split : split? kind cs = some (text, rest)) :
    Longest kind cs text rest := by
  match kind with
  | none => exact longest_of_gap? split
  | some .comment => exact longest_of_comment? split
  | some .newline => exact longest_of_newline? split
  | some .label => exact longest_of_label? split
  | some .directive => exact longest_of_directive? split
  | some .mnemonic => exact longest_of_mnemonic? split
  | some .comma => exact longest_of_comma? split
  | some .operand => exact longest_of_operand? split

/-- A rule that describes a beginning of the text applies. -/
theorem split?_isSome (describes : Describes kind text) (rest : List Char) :
    (split? kind (text ++ rest)).isSome = true := by
  match kind, describes with
  | none, ⟨nonempty, gaps⟩ =>
    obtain ⟨c, text, rfl⟩ := List.exists_cons_of_ne_nil nonempty
    have isGap : isGap c = true := gaps c List.mem_cons_self
    simp [split?, gap?, splitRun, isGap]
  | some .comment, ⟨text, isHash, _⟩ => simp [split?, isHash, comment?]
  | some .newline, isBreak =>
    cases isBreak
    rfl
  | some .label, ⟨name, isLabel, nonempty, chars⟩ =>
    rw [isLabel, List.append_assoc]
    simp only [split?, List.cons_append, List.nil_append, label?_append ⟨nonempty, chars⟩]
    rfl
  | some .directive, ⟨c, text, isDot, start, _⟩ => simp [split?, isDot, directive?, start]
  | some .mnemonic, ⟨c, text, isCons, letter, _⟩ => simp [split?, isCons, mnemonic?, letter]
  | some .comma, isComma =>
    cases isComma
    rfl
  | some .operand, ⟨c, text, isCons, starts, _⟩ => simp [split?, isCons, operand?, starts]

theorem split?_eq_none_iff : split? kind cs = none ↔ NoMatch kind cs := by
  constructor
  · rintro isNone text rest rfl describes
    have isSome := split?_isSome describes rest
    rw [isNone] at isSome
    contradiction
  · intro noMatch
    by_contra isSome
    obtain ⟨⟨text, rest⟩, split⟩ := Option.ne_none_iff_exists'.1 isSome
    have longest := longest_of_split? split
    exact noMatch text rest longest.whole longest.describes

/-- There is one longest beginning at most. -/
theorem Longest.unique {text' rest' : List Char} (longest : Longest kind cs text rest)
    (other : Longest kind cs text' rest') : text = text' ∧ rest = rest' := by
  have same : text.length = text'.length :=
    Nat.le_antisymm (other.longest _ _ longest.whole longest.describes)
      (longest.longest _ _ other.whole other.describes)
  exact List.append_inj (longest.whole.symm.trans other.whole) same

theorem split?_eq_some_iff : split? kind cs = some (text, rest) ↔ Longest kind cs text rest := by
  refine ⟨longest_of_split?, fun longest => ?_⟩
  have isSome := split?_isSome longest.describes rest
  rw [← longest.whole] at isSome
  obtain ⟨⟨text', rest'⟩, split⟩ := Option.isSome_iff_exists.1 isSome
  obtain ⟨rfl, rfl⟩ := longest.unique (longest_of_split? split)
  exact split

/-! ## All rules of a mode -/

/-- The rules are tried in order. -/
theorem nextLexeme?_eq (mode : Mode) (cs : List Char) :
    nextLexeme? mode cs = mode.rules.findSome? fun kind => lexeme? kind (split? kind cs) := by
  cases mode <;>
    simp only [nextLexeme?, Mode.rules, List.findSome?_cons, List.findSome?_nil, split?,
      Option.orElse_eq_orElse, Option.orElse_eq_or] <;>
    grind [Option.or_eq_right_of_none]

theorem lexeme?_eq_none_iff : lexeme? kind (split? kind cs) = none ↔ NoMatch kind cs := by
  rw [lexeme?, Option.map_eq_none_iff, split?_eq_none_iff]

theorem nextLexeme?_eq_none_iff :
    nextLexeme? mode cs = none ↔ ∀ kind ∈ mode.rules, NoMatch kind cs := by
  simp only [nextLexeme?_eq, List.findSome?_eq_none_iff, lexeme?_eq_none_iff]

/-- The next lexeme is the longest match of the first rule that matches. -/
theorem nextLexeme?_eq_some_iff :
    nextLexeme? mode cs = some ⟨kind, text, rest⟩ ↔ Takes mode cs kind text rest := by
  have lexeme {k : Option TokenKind} : lexeme? k (split? k cs) = some ⟨kind, text, rest⟩ ↔
      k = kind ∧ Longest kind cs text rest := by
    rw [lexeme?, Option.map_eq_some_iff]
    constructor
    · rintro ⟨⟨text', rest'⟩, split, same⟩
      cases same
      exact ⟨rfl, longest_of_split? split⟩
    · rintro ⟨rfl, longest⟩
      exact ⟨_, split?_eq_some_iff.2 longest, rfl⟩
  rw [nextLexeme?_eq, List.findSome?_eq_some_iff]
  simp only [lexeme?_eq_none_iff, lexeme]
  constructor
  · rintro ⟨earlier, _, later, rules, ⟨rfl, longest⟩, noMatch⟩
    exact ⟨longest, earlier, later, rules, noMatch⟩
  · rintro ⟨longest, earlier, later, rules, noMatch⟩
    exact ⟨earlier, kind, later, rules, ⟨rfl, longest⟩, noMatch⟩

/-! ## Reading on -/

/-- How far the lexer has come: its mode, the position and the text that is left. -/
structure Progress where
  mode : Mode
  position : Position
  rest : List Char

/-- Where the lexer begins. -/
def Progress.start (cs : List Char) : Progress := ⟨.line, ⟨1, 1⟩, cs⟩

/-- The lexer behind a token or white space. -/
def Progress.behind (p : Progress) (kind : Option TokenKind) (text rest : List Char) : Progress :=
  ⟨p.mode.after kind, advance p.position kind text, rest⟩

/-- No rule of the mode describes a beginning of the text that is left. -/
structure Progress.Stuck (p : Progress) : Prop where
  nonempty : p.rest ≠ []
  noMatch : ∀ kind ∈ p.mode.rules, NoMatch kind p.rest

/-- The lexer comes from one place to another, and reads the tokens on the way. -/
inductive Reads : Progress → List Token → Progress → Prop
  | here {p : Progress} : Reads p [] p
  | gap {p q : Progress} {text rest : List Char} {tokens : List Token} :
    Takes p.mode p.rest none text rest → Reads (p.behind none text rest) tokens q →
    Reads p tokens q
  | token {p q : Progress} {kind : TokenKind} {text rest : List Char} {tokens : List Token} :
    Takes p.mode p.rest (some kind) text rest → Reads (p.behind kind text rest) tokens q →
    Reads p (⟨kind, text, p.position⟩ :: tokens) q

/-- Cutting succeeds where the lexer reads to the end. -/
theorem cuts_iff_reads : Cuts mode position cs tokens ↔
    ∃ p : Progress, p.rest = [] ∧ Reads ⟨mode, position, cs⟩ tokens p := by
  constructor
  · intro cuts
    induction cuts with
    | @nil mode position => exact ⟨⟨mode, position, []⟩, rfl, .here⟩
    | gap next _ ih => exact ih.imp fun p reads =>
        ⟨reads.1, .gap (nextLexeme?_eq_some_iff.1 next) reads.2⟩
    | token next _ ih => exact ih.imp fun p reads =>
        ⟨reads.1, .token (nextLexeme?_eq_some_iff.1 next) reads.2⟩
  · rintro ⟨q, atEnd, reads⟩
    generalize isStart : (⟨mode, position, cs⟩ : Progress) = p at reads
    induction reads generalizing mode position cs with
    | here =>
      cases isStart
      cases atEnd
      exact .nil
    | gap takes _ ih =>
      cases isStart
      exact .gap (nextLexeme?_eq_some_iff.2 takes) (ih atEnd rfl)
    | token takes _ ih =>
      cases isStart
      exact .token (nextLexeme?_eq_some_iff.2 takes) (ih atEnd rfl)

theorem tokens_eq_ok_iff : Source.tokens cs = .ok tokens ↔
    ∃ p : Progress, p.rest = [] ∧ Reads (.start cs) tokens p :=
  tokens_eq_ok.trans cuts_iff_reads

/-- Where cutting fails, the lexer is stuck. -/
theorem reads_of_cut {steps : Nat} {e : Position × List Char}
    (failed : cut steps mode position cs = .error e) (enough : cs.length ≤ steps) :
    ∃ (tokens : List Token) (p : Progress),
      Reads ⟨mode, position, cs⟩ tokens p ∧ p.Stuck ∧ e = (p.position, p.rest) := by
  fun_induction Source.cut steps mode position cs with
  | case1 => contradiction
  | case2 mode position cs nonempty =>
    exact absurd (List.eq_nil_of_length_eq_zero (Nat.le_zero.1 enough)) nonempty
  | case3 steps mode position cs nonempty isNone =>
    cases failed
    exact ⟨[], _, .here, ⟨nonempty, nextLexeme?_eq_none_iff.1 isNone⟩, rfl⟩
  | case4 steps mode position cs nonempty lexeme next ih =>
    have shorter := length_rest_lt next
    obtain ⟨kind, text, rest⟩ := lexeme
    have takes := nextLexeme?_eq_some_iff.1 next
    simp only [bind, Except.bind] at failed
    split at failed
    · next e' further =>
      cases failed
      obtain ⟨tokens, p, reads, stuck⟩ := ih further (by simp only at shorter ⊢; omega)
      cases kind with
      | none => exact ⟨tokens, p, .gap takes reads, stuck⟩
      | some kind => exact ⟨_, p, .token takes reads, stuck⟩
    · cases kind <;> contradiction

/-- A failure behind a token or white space makes cutting fail before it. -/
theorem Takes.cut_eq_error {p : Progress} {e : Position × List Char} {steps : Nat}
    (takes : Takes p.mode p.rest kind text rest) (enough : p.rest.length ≤ steps)
    (further : ∀ left, rest.length ≤ left →
      cut left (p.mode.after kind) (advance p.position kind text) rest = .error e) :
    cut steps p.mode p.position p.rest = .error e := by
  have next := nextLexeme?_eq_some_iff.2 takes
  have shorter : rest.length < p.rest.length := length_rest_lt next
  obtain ⟨left, rfl⟩ : ∃ left, steps = left + 1 := ⟨steps - 1, by omega⟩
  rw [cut.eq_3 _ _ _ _ fun isNil => by simp [isNil] at shorter, next]
  simp only [bind, Except.bind]
  rw [further left (by omega)]

/-- A place where the lexer is stuck makes cutting fail. -/
theorem Reads.cut_eq_error {p q : Progress} (reads : Reads p tokens q) (stuck : q.Stuck)
    {steps : Nat} (enough : p.rest.length ≤ steps) :
    cut steps p.mode p.position p.rest = .error (q.position, q.rest) := by
  induction reads generalizing steps with
  | @here p =>
    obtain ⟨c, cs, isCons⟩ := List.exists_cons_of_ne_nil stuck.nonempty
    have isNone := nextLexeme?_eq_none_iff.2 stuck.noMatch
    rw [isCons] at isNone enough ⊢
    obtain ⟨left, rfl⟩ : ∃ left, steps = left + 1 := ⟨steps - 1, by simp at enough; omega⟩
    rw [cut.eq_3 _ _ _ _ (List.cons_ne_nil _ _), isNone]
  | gap takes _ ih => exact takes.cut_eq_error enough fun _ enough => ih stuck enough
  | token takes _ ih => exact takes.cut_eq_error enough fun _ enough => ih stuck enough

/-- Cutting fails exactly where the lexer gets stuck. -/
theorem tokens_eq_error_iff {e : Position × List Char} : Source.tokens cs = .error e ↔
    ∃ (tokens : List Token) (p : Progress),
      Reads (.start cs) tokens p ∧ p.Stuck ∧ e = (p.position, p.rest) := by
  refine ⟨fun failed => reads_of_cut failed le_rfl, ?_⟩
  rintro ⟨tokens, p, reads, stuck, rfl⟩
  exact reads.cut_eq_error stuck le_rfl

end MipsFlow.Source
