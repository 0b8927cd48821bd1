import Mathlib.Data.List.DropRight
import MipsFlow.Operand
import MipsFlow.Source.Token
import MipsFlow.Text.Blank
import MipsFlow.Proofs.Numerals

/-!
# Operands read back from their text

A text is *plain* if a source can have it for an operand as it stands: it is not empty, has no
blanks at its ends, and none of the characters that end an operand. The operands that are read from
plain texts are *legible*: so are all those that are put together from their registers and offsets.
A legible operand is written as a plain text (`Operand.Legible.plain`) that is read as the same
operand (`Operand.Legible.ofText`), even where it was spelled in another way at first.
-/

namespace MipsFlow

namespace Text

variable {cs bs : List Char}

/-! ## Blanks -/

/-- Letters and digits lie between two places of the character set. -/
theorem toNat_of_isAlphanum {c : Char} (isAlphanum : c.isAlphanum = true) :
    48 ≤ c.toNat ∧ c.toNat ≤ 122 := by
  have ranges : (decide ('A'.val ≤ c.val ∧ c.val ≤ 'Z'.val) ||
      decide ('a'.val ≤ c.val) && decide (c.val ≤ 'z'.val) ||
      decide ('0'.val ≤ c.val) && decide (c.val ≤ '9'.val)) = true := isAlphanum
  simp only [Bool.or_eq_true, Bool.and_eq_true, decide_eq_true_eq,
    UInt32.le_iff_toNat_le] at ranges
  change _ ≤ c.val.toNat ∧ c.val.toNat ≤ _
  have : 'A'.val.toNat = 65 := rfl
  have : 'Z'.val.toNat = 90 := rfl
  have : 'a'.val.toNat = 97 := rfl
  have : 'z'.val.toNat = 122 := rfl
  have : '0'.val.toNat = 48 := rfl
  have : '9'.val.toNat = 57 := rfl
  omega

/-- No visible character of the first half of the character set is a blank. -/
theorem toNat_of_isBlank {c : Char} (blank : isBlank c = true) : c.toNat ≤ 32 ∨ 133 ≤ c.toNat := by
  simp only [isBlank, Bool.or_eq_true, Bool.and_eq_true, decide_eq_true_eq, or_assoc] at blank
  rcases blank with rfl | rfl | rfl | rfl | rfl | rfl | rfl | rfl | rfl | spaces | rfl | rfl | rfl |
    rfl | rfl
  case inr.inr.inr.inr.inr.inr.inr.inr.inr.inl =>
    have above : '\u2000'.toNat ≤ c.toNat := spaces.1
    exact Or.inr (Nat.le_trans (by decide) above)
  all_goals decide

theorem isBlank_of_isAlphanum {c : Char} (isAlphanum : c.isAlphanum = true) :
    isBlank c = false := by
  by_contra blank
  have bounds := toNat_of_isAlphanum isAlphanum
  have outside := toNat_of_isBlank (eq_true_of_ne_false blank)
  omega

/-! ## Blanks at the ends -/

/-- There is no blank at either end. -/
structure Trimmed (cs : List Char) : Prop where
  head : ∀ c ∈ cs.head?, isBlank c = false
  last : ∀ c ∈ cs.getLast?, isBlank c = false

theorem trimChars_eq (cs : List Char) :
    trimChars cs = (cs.dropWhile isBlank).rdropWhile isBlank := rfl

theorem subset_trimChars (cs : List Char) : trimChars cs ⊆ cs :=
  fun _ member => (List.dropWhile_suffix isBlank).subset
    ((List.rdropWhile_prefix isBlank _).subset member)

theorem head_dropWhile_isBlank (cs : List Char) :
    ∀ c ∈ (cs.dropWhile isBlank).head?, isBlank c = false := by
  intro c isHead
  have found := List.head?_dropWhile_not isBlank cs
  rw [Option.mem_def.1 isHead] at found
  simpa using found

/-- Trimming leaves no blanks at the ends. -/
theorem trimmed_trimChars (cs : List Char) : Trimmed (trimChars cs) := by
  rw [trimChars_eq]
  constructor
  · intro c isHead
    obtain ⟨blanks, whole⟩ := List.rdropWhile_prefix isBlank (cs.dropWhile isBlank)
    refine head_dropWhile_isBlank cs c ?_
    rw [← whole]
    exact List.mem_head?_append_of_mem_head? isHead
  · intro c isLast
    obtain ⟨nonempty, rfl⟩ := List.mem_getLast?_eq_getLast isLast
    simpa using List.rdropWhile_last_not isBlank (cs.dropWhile isBlank) nonempty

/-- Trimming takes off exactly the blanks behind a trimmed text. -/
theorem Trimmed.trimChars_append (trimmed : Trimmed cs) (nonempty : cs ≠ [])
    (blanks : ∀ c ∈ bs, isBlank c = true) : trimChars (cs ++ bs) = cs := by
  obtain ⟨c, rest, rfl⟩ := List.exists_cons_of_ne_nil nonempty
  have head : isBlank c = false := trimmed.head c rfl
  have kept : (c :: rest ++ bs).dropWhile isBlank = c :: rest ++ bs := by simp [head]
  rw [trimChars_eq, kept, List.rdropWhile, List.reverse_append,
    List.dropWhile_append_of_pos (by simpa using blanks)]
  refine List.rdropWhile_eq_self_iff.2 fun inside => ?_
  simpa using trimmed.last _ (List.getLast_mem_getLast? inside)

theorem Trimmed.trimChars_eq (trimmed : Trimmed cs) (nonempty : cs ≠ []) : trimChars cs = cs := by
  have none : ∀ c ∈ ([] : List Char), isBlank c = true := fun c member =>
    absurd member List.not_mem_nil
  simpa using trimmed.trimChars_append nonempty none

/-- A text that begins with no blank is cut off at its end only. -/
theorem exists_append_of_head (head : ∀ c ∈ cs.head?, isBlank c = false) :
    ∃ bs, (∀ c ∈ bs, isBlank c = true) ∧ cs = trimChars cs ++ bs := by
  have kept : cs.dropWhile isBlank = cs := by
    cases cs with
    | nil => rfl
    | cons c rest => simp [head c rfl]
  refine ⟨cs.rtakeWhile isBlank, fun c => List.mem_rtakeWhile_imp, ?_⟩
  rw [Text.trimChars_eq, kept]
  exact List.rdropWhile_append_rtakeWhile.symm

theorem trimmed_of_forall (solid : ∀ c ∈ cs, isBlank c = false) : Trimmed cs :=
  ⟨fun c isHead => solid c (List.mem_of_mem_head? isHead), fun c isLast =>
    solid c (List.mem_of_mem_getLast? isLast)⟩

end Text

/-! ## Register names -/

namespace Reg

/-- The register is read back from its name. -/
def Named (r : Reg) : Prop := ofName? r.name = some r

instance (r : Reg) : Decidable r.Named := inferInstanceAs (Decidable (_ = _))

/-- A character that the names of registers are made of. -/
def isNameChar (c : Char) : Bool := c = '$' || c.isAlphanum || c = '-' || c = '+'

theorem named_general : ∀ n : Fin 32, (general n).Named := by decide +kernel

theorem not_named_pseudo : ∀ r ∈ [hi, lo, flag], ¬ r.Named := by decide +kernel

theorem ofFloatSpelling?_eq_some {cs : List Char} {r : Reg} (read : ofFloatSpelling? cs = some r) :
    r = .float (String.ofList cs) ∧ ∃ n, Text.readDecimal? cs = some n := by
  obtain ⟨number, isNumber, rfl⟩ := Option.map_eq_some_iff.1 read
  obtain ⟨n, isRead, -⟩ := Option.bind_eq_some_iff.1 isNumber
  exact ⟨rfl, n, isRead⟩

/-- What a name that is read as a register begins with, and which register it is. -/
theorem ofName?_eq_some {s : String} {r : Reg} (read : ofName? s = some r) :
    (∃ n, r = .general n) ∨ ∃ cs, s.toList = '$' :: 'f' :: cs ∧ ofFloatSpelling? cs = some r := by
  unfold ofName? at read
  split at read
  · next cs text =>
    unfold ofBareName? at read
    split at read
    · next n _ => exact Or.inl ⟨n, (Option.some.inj read).symm⟩
    · split at read
      · split at read
        · exact Or.inl ((Option.map_eq_some_iff.1 read).imp fun n isNumber => isNumber.2.symm)
        · contradiction
      · split at read
        · next rest _ _ => exact Or.inr ⟨rest, text, read⟩
        · contradiction
  · contradiction

/-- Registers that are read have names that are read. -/
theorem named_of_ofName? {s : String} {r : Reg} (read : ofName? s = some r) : r.Named := by
  rcases ofName?_eq_some read with ⟨n, rfl⟩ | ⟨cs, text, spelled⟩
  · exact named_general n
  · obtain ⟨rfl, -⟩ := ofFloatSpelling?_eq_some spelled
    have same : (float (String.ofList cs)).name = s := by
      rw [← String.toList_inj, text]
      simp [name]
    rw [Named, same]
    exact read

theorem isDigit_of_readDigits? {cs : List Char} {n : Nat} (read : Text.readDigits? cs = some n) :
    ∀ c ∈ cs, c.isDigit = true := by
  unfold Text.readDigits? at read
  split at read
  · next digits => exact fun c member => List.all_eq_true.1 digits.2 c member
  · contradiction

theorem isNameChar_of_readDecimal? {cs : List Char} {n : Int}
    (read : Text.readDecimal? cs = some n) : ∀ c ∈ cs, isNameChar c = true := by
  have digits {ds : List Char} {f : Nat → Option Int}
      (read : (Text.readDigits? ds).bind f = some n) : ∀ c ∈ ds, isNameChar c = true := by
    obtain ⟨m, isRead, -⟩ := Option.bind_eq_some_iff.1 read
    intro c member
    simp [isNameChar, Char.isAlphanum, isDigit_of_readDigits? isRead c member]
  unfold Text.readDecimal? at read
  split at read
  · exact List.forall_mem_cons.2 ⟨rfl, digits read⟩
  · exact List.forall_mem_cons.2 ⟨rfl, digits read⟩
  · exact digits read

/-- Names are made of letters, digits, signs and dollar signs. -/
theorem Named.isNameChar {r : Reg} (named : r.Named) :
    ∀ c ∈ r.name.toList, isNameChar c = true := by
  cases r with
  | general n =>
    have all : ∀ n : Fin 32, (general n).name.toList.all Reg.isNameChar = true := by decide +kernel
    exact List.all_eq_true.1 (all n)
  | float spelling =>
    rcases ofName?_eq_some named with ⟨n, isGeneral⟩ | ⟨cs, text, spelled⟩
    · cases isGeneral
    · obtain ⟨-, n, read⟩ := ofFloatSpelling?_eq_some spelled
      rw [text]
      exact List.forall_mem_cons.2 ⟨rfl, List.forall_mem_cons.2
        ⟨rfl, isNameChar_of_readDecimal? read⟩⟩
  | hi => exact absurd named (not_named_pseudo _ (by simp))
  | lo => exact absurd named (not_named_pseudo _ (by simp))
  | flag => exact absurd named (not_named_pseudo _ (by simp))

theorem Named.ne_nil {r : Reg} (named : r.Named) : r.name.toList ≠ [] := by
  intro empty
  have read : ofName? r.name = some r := named
  rw [ofName?, empty] at read
  contradiction

end Reg

/-! ## Plain texts -/

namespace Operand

/-- The text can stand for an operand in a source as it is. -/
structure Plain (cs : List Char) : Prop where
  nonempty : cs ≠ []
  trimmed : Text.Trimmed cs
  continues : ∀ c ∈ cs, Source.continuesOperand c = true

/-- The text can stand for an offset, and is not a number. -/
structure Symbolic (cs : List Char) : Prop where
  nonempty : cs ≠ []
  head : ∀ c ∈ cs.head?, Text.isBlank c = false
  continues : ∀ c ∈ cs, Source.continuesOperand c = true
  unread : ∀ value, Text.Numeral.signed cs ≠ .ok value

/-- The operand is read back from its text. -/
def Legible : Operand → Prop
  | .reg r => r.Named
  | .imm _ => True
  | .mem (.number _) base => base.Named
  | .mem (.symbol text) base => Symbolic text.toList ∧ base.Named
  | .sym text => Plain text.toList ∧ ofText text = .ok (.sym text)

variable {cs offset base : List Char} {o : Operand} {s : String} {r : Reg}

/-! ### What is written is plain -/

/-- The character is neither blank nor at the end of an operand. -/
def isSolid (c : Char) : Bool := !Text.isBlank c && Source.continuesOperand c

theorem isSolid_iff {c : Char} :
    isSolid c = true ↔ Text.isBlank c = false ∧ Source.continuesOperand c = true := by
  simp [isSolid]

theorem isSolid_of_isAlphanum {c : Char} (isAlphanum : c.isAlphanum = true) :
    isSolid c = true := by
  refine isSolid_iff.2 ⟨Text.isBlank_of_isAlphanum isAlphanum, ?_⟩
  by_contra ends
  have isEnd : c = ',' ∨ c = '#' ∨ c = '\n' := by
    simpa [Source.continuesOperand, or_assoc, imp_iff_not_or] using ends
  rcases isEnd with rfl | rfl | rfl <;> contradiction

theorem isSolid_of_isNameChar {c : Char} (isName : Reg.isNameChar c = true) :
    isSolid c = true := by
  simp only [Reg.isNameChar, Bool.or_eq_true, decide_eq_true_eq] at isName
  rcases isName with ((rfl | isAlphanum) | rfl) | rfl
  · decide
  · exact isSolid_of_isAlphanum isAlphanum
  · decide
  · decide

theorem isNameChar_of_mem_decimal {c : Char} {v : Int} (member : c ∈ (Text.decimal v).toList) :
    Reg.isNameChar c = true := by
  have digits {c : Char} (member : c ∈ Nat.toDigits 10 v.natAbs) : Reg.isNameChar c = true := by
    simp [Reg.isNameChar, Char.isAlphanum, Text.isDigit_of_mem_toDigits member]
  rw [Text.toList_decimal] at member
  split at member
  · rcases List.mem_cons.1 member with rfl | member
    · decide
    · exact digits member
  · exact digits member

theorem plain_of_isNameChar (nonempty : cs ≠ []) (names : ∀ c ∈ cs, Reg.isNameChar c = true) :
    Plain cs := by
  have solid (c : Char) (member : c ∈ cs) := isSolid_iff.1 (isSolid_of_isNameChar (names c member))
  exact ⟨nonempty, Text.trimmed_of_forall fun c member => (solid c member).1,
    fun c member => (solid c member).2⟩

theorem decimal_ne_nil (v : Int) : (Text.decimal v).toList ≠ [] := by
  rw [Text.toList_decimal]
  split
  · exact List.cons_ne_nil _ _
  · exact Nat.toDigits_ne_nil

theorem plain_decimal (v : Int) : Plain (Text.decimal v).toList :=
  plain_of_isNameChar (decimal_ne_nil v) fun _ => isNameChar_of_mem_decimal

/-- A memory place is plain if its offset has nothing against it. -/
theorem plain_memory (nonempty : offset ≠ [])
    (head : ∀ c ∈ offset.head?, Text.isBlank c = false)
    (continues : ∀ c ∈ offset, Source.continuesOperand c = true)
    (names : ∀ c ∈ base, Reg.isNameChar c = true) : Plain (offset ++ '(' :: (base ++ [')'])) := by
  obtain ⟨first, rest, rfl⟩ := List.exists_cons_of_ne_nil nonempty
  refine ⟨List.cons_ne_nil _ _, ⟨head, ?_⟩, ?_⟩
  · have last : (first :: rest ++ '(' :: (base ++ [')'])).getLast? = some ')' := by
      rw [← List.cons_append, ← List.append_assoc, List.getLast?_concat]
    intro c isLast
    rw [last] at isLast
    cases isLast
    decide
  · intro c member
    rcases List.mem_append.1 member with inside | inside
    · exact continues c inside
    · rcases List.mem_cons.1 inside with rfl | inside
      · decide
      · rcases List.mem_append.1 inside with inside | inside
        · exact (isSolid_iff.1 (isSolid_of_isNameChar (names c inside))).2
        · rw [List.mem_singleton.1 inside]
          decide

theorem toList_text_mem (offset : Offset) (base : Reg) : (Operand.mem offset base).text.toList =
    offset.text.toList ++ '(' :: (base.name.toList ++ [')']) := by
  simp [text]

theorem Legible.plain (legible : o.Legible) : Plain o.text.toList := by
  cases o with
  | reg r => exact plain_of_isNameChar legible.ne_nil legible.isNameChar
  | imm value => exact plain_decimal value.toInt
  | mem offset base =>
    rw [toList_text_mem]
    cases offset with
    | number value =>
      have number : Plain (Text.decimal value.toInt).toList := plain_decimal value.toInt
      exact plain_memory number.nonempty number.trimmed.head number.continues legible.isNameChar
    | symbol text =>
      obtain ⟨symbolic, named⟩ := legible
      exact plain_memory symbolic.nonempty symbolic.head symbolic.continues named.isNameChar
  | sym text => exact legible.1

/-! ### What is written is read -/

/-- A memory place is split where it was put together. -/
theorem splitMemory?_append (noParen : '(' ∉ base) :
    splitMemory? (offset ++ '(' :: (base ++ [')'])) = some (offset, base) := by
  have differ : ∀ c ∈ base.reverse, decide (c ≠ '(') = true := by
    intro c member
    exact decide_eq_true fun isParen => noParen (isParen ▸ List.mem_reverse.1 member)
  have reversed : (offset ++ '(' :: (base ++ [')'])).reverse =
      ')' :: (base.reverse ++ '(' :: offset.reverse) := by simp
  have before : (base.reverse ++ '(' :: offset.reverse).takeWhile (· ≠ '(') = base.reverse := by
    rw [List.takeWhile_append_of_pos differ]
    simp
  have behind : (base.reverse ++ '(' :: offset.reverse).dropWhile (· ≠ '(') =
      '(' :: offset.reverse := by
    rw [List.dropWhile_append_of_pos differ]
    simp
  unfold splitMemory?
  rw [reversed]
  simp only [before, behind, List.reverse_reverse]

/-- What is split as a memory place has been put together as one. -/
theorem eq_append_of_splitMemory? (split : splitMemory? cs = some (offset, base)) :
    cs = offset ++ '(' :: (base ++ [')']) := by
  unfold splitMemory? at split
  split at split
  · next before reversed =>
    split at split
    · next front behind =>
      obtain ⟨rfl, rfl⟩ := Prod.mk.inj (Option.some.inj split)
      have whole := List.takeWhile_append_dropWhile (p := fun c => decide (c ≠ '(')) (l := before)
      rw [behind] at whole
      rw [← List.reverse_reverse cs, reversed]
      exact (congrArg (fun before => (')' :: before).reverse) whole).symm.trans (by simp)
    · contradiction
  · contradiction

theorem splitMemory?_of_getLast? (last : cs.getLast? ≠ some ')') : splitMemory? cs = none := by
  unfold splitMemory?
  split
  · next before reversed =>
    rw [List.getLast?_eq_head?_reverse, reversed] at last
    exact absurd rfl last
  · rfl

theorem readMemory?_append (names : ∀ c ∈ base, Reg.isNameChar c = true)
    (read : Reg.ofName? (String.ofList base) = some r) :
    readMemory? (offset ++ '(' :: (base ++ [')'])) = some (.mem (readOffset offset) r) := by
  have noParen : '(' ∉ base := fun member => absurd (names _ member) (by decide)
  simp [readMemory?, splitMemory?_append noParen, read]

/-- Texts of name characters and texts of digits are no memory places. -/
theorem readMemory?_of_isNameChar (names : ∀ c ∈ cs, Reg.isNameChar c = true) :
    readMemory? cs = none := by
  have last : cs.getLast? ≠ some ')' := fun isLast =>
    absurd (names _ (List.mem_of_getLast? isLast)) (by decide)
  simp [readMemory?, splitMemory?_of_getLast? last]

theorem readOffset_decimal (value : Int64) :
    readOffset (Text.decimal value.toInt).toList = .number value := by
  have nonempty : (Text.decimal value.toInt).toList.isEmpty = false := by
    simpa using (decimal_ne_nil value.toInt)
  simp [readOffset, nonempty, Text.Numeral.signed_decimal]

theorem Symbolic.readOffset (symbolic : Symbolic s.toList) :
    readOffset s.toList = .symbol s := by
  have unread := symbolic.unread
  have nonempty := symbolic.nonempty
  unfold Operand.readOffset
  cases read : Text.Numeral.signed s.toList with
  | ok value => exact absurd read (unread value)
  | error e => simp [nonempty]

/-- Numbers are no names of registers. -/
theorem ofName?_decimal (v : Int) : Reg.ofName? (Text.decimal v) = none := by
  unfold Reg.ofName?
  split
  · next cs text =>
    have isDollar : '$' ∈ Nat.toDigits 10 v.natAbs ∨ '$' = '-' := by
      rw [Text.toList_decimal] at text
      split at text
      · exact Or.inr (List.cons.inj text).1.symm
      · exact Or.inl (text ▸ List.mem_cons_self)
    rcases isDollar with member | isMinus
    · exact absurd (Text.isDigit_of_mem_toDigits member) (by decide)
    · exact absurd isMinus (by decide)
  · rfl

/-- A legible operand is read back from its text. -/
theorem Legible.ofText (legible : o.Legible) : ofText o.text = .ok o := by
  have nonempty := legible.plain.nonempty
  cases o with
  | reg r =>
    have named : Reg.ofName? r.name = some r := legible
    have noMemory := readMemory?_of_isNameChar legible.isNameChar
    simp only [text] at nonempty ⊢
    simp [Operand.ofText, nonempty, noMemory, named]
  | imm value =>
    have noMemory := readMemory?_of_isNameChar fun c => isNameChar_of_mem_decimal (v := value.toInt)
    simp only [text] at nonempty ⊢
    simp [Operand.ofText, nonempty, noMemory, ofName?_decimal, readNumber?,
      Text.Numeral.signed_decimal]
  | mem offset base =>
    have named : base.Named := by
      cases offset with
      | number value => exact legible
      | symbol text => exact legible.2
    have isOffset : readOffset offset.text.toList = offset := by
      cases offset with
      | number value => exact readOffset_decimal value
      | symbol text => exact legible.1.readOffset
    have read : readMemory? (Operand.mem offset base).text.toList = some (.mem offset base) := by
      rw [toList_text_mem, readMemory?_append named.isNameChar (by rwa [String.ofList_toList]),
        isOffset]
    simp [Operand.ofText, nonempty, read]
  | sym text => exact legible.2

/-! ### What is read is legible -/

theorem legible_of_readMemory? (plain : Plain cs) (read : readMemory? cs = some o) :
    o.Legible := by
  obtain ⟨⟨offset, base⟩, split, isBase⟩ := Option.bind_eq_some_iff.1 read
  obtain ⟨r, isName, rfl⟩ := Option.map_eq_some_iff.1 isBase
  have named := Reg.named_of_ofName? isName
  have whole := eq_append_of_splitMemory? split
  unfold readOffset
  split
  · exact named
  · next nonempty =>
    split
    · exact named
    · next unread =>
      refine ⟨⟨?_, fun c isHead => ?_, fun c member => ?_, ?_⟩, named⟩
      · simpa using nonempty
      · refine plain.trimmed.head c ?_
        rw [whole]
        rw [String.toList_ofList] at isHead
        exact List.mem_head?_append_of_mem_head? isHead
      · refine plain.continues c ?_
        rw [whole]
        rw [String.toList_ofList] at member
        exact List.mem_append_left _ member
      · rw [String.toList_ofList, unread]
        exact fun value isValue => by contradiction

/-- Every operand that is read from a plain text is legible. -/
theorem legible_of_ofText (plain : Plain s.toList) (read : ofText s = .ok o) : o.Legible := by
  have isRead := read
  unfold ofText at isRead
  simp only at isRead
  split at isRead
  · contradiction
  · split at isRead
    · next memory =>
      cases isRead
      exact legible_of_readMemory? plain memory
    · split at isRead
      · next isName =>
        cases isRead
        exact Reg.named_of_ofName? isName
      · split at isRead
        · cases isRead
          trivial
        · split at isRead
          · contradiction
          · cases isRead
            exact ⟨plain, read⟩

end Operand

end MipsFlow
