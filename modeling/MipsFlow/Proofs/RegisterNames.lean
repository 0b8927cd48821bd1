import Mathlib.Data.List.Nodup
import MipsFlow.Proofs.OperandTexts

/-!
# One name for each register

A source may name a general register by its number or by an alias, and a floating point register by
`$f` and any decimal text of its number. Reading is exact about which of the machine's registers a
text denotes (`Reg.Denotes`): a text that is read denotes one register only, and so does the name
that it is read as. All texts of a general register are read as one name. Texts of a floating point
register are not: `$f05` is read, but keeps its zero, and is another register than `$f5`
(`Reg.float_names_differ`).
-/

namespace MipsFlow

/-- A register of the machine that a source can name. -/
inductive NumberedReg where
  | general (number : Fin 32)
  | float (number : Fin 32)
deriving DecidableEq, Repr

namespace Reg

/-- The text denotes the register, in whichever way its number is spelled. -/
inductive Denotes (s : String) : NumberedReg → Prop
  | byAlias {bare : String} {n : Fin 32} (text : s.toList = '$' :: bare.toList)
      (listed : (bare, n) ∈ aliases) : Denotes s (.general n)
  | byNumber {cs : List Char} {n : Fin 32} (text : s.toList = '$' :: cs)
      (spelled : Text.readDecimal? cs = some (n.val : Int)) : Denotes s (.general n)
  | byFloat {cs : List Char} {n : Fin 32} (text : s.toList = '$' :: 'f' :: cs)
      (spelled : Text.readDecimal? cs = some (n.val : Int)) : Denotes s (.float n)

variable {s t : String} {r q : Reg} {a b : NumberedReg} {cs : List Char}

theorem number?_eq_some {m : Int} {n : Fin 32} (isNumber : number? m = some n) :
    m = (n.val : Int) := by
  unfold number? at isNumber
  split at isNumber
  · split at isNumber
    · cases isNumber
      exact (Int.toNat_of_nonneg ‹_›).symm
    · contradiction
  · contradiction

/-! ## One register for each text -/

/-- No number begins with a letter. -/
theorem readDecimal?_letter (cs : List Char) : Text.readDecimal? ('f' :: cs) = none := by
  simp [Text.readDecimal?, Text.readDigits?]

theorem nodup_aliases : (aliases.map Prod.fst).Nodup := by decide

theorem alias_unique {bare : String} {n m : Fin 32} (first : (bare, n) ∈ aliases)
    (second : (bare, m) ∈ aliases) : n = m :=
  congrArg Prod.snd (List.inj_on_of_nodup_map nodup_aliases first second rfl)

/-- No alias is a number, and neither is what follows the `f` of one. -/
theorem alias_not_decimal : ∀ entry ∈ aliases, Text.readDecimal? entry.1.toList = none ∧
    (entry.1.toList.head? = some 'f' → Text.readDecimal? (entry.1.toList.drop 1) = none) := by
  decide +kernel

/-- A text that is an alias denotes what the alias stands for, and nothing else. -/
theorem Denotes.of_alias {bare : String} {n : Fin 32} (denotes : Denotes s b)
    (text : s.toList = '$' :: bare.toList) (listed : (bare, n) ∈ aliases) : b = .general n := by
  obtain ⟨notNumber, notFloat⟩ := alias_not_decimal _ listed
  cases denotes with
  | byAlias text' listed' =>
    obtain rfl := String.toList_inj.1 (List.cons.inj (text'.symm.trans text)).2
    rw [alias_unique listed' listed]
  | byNumber text' spelled =>
    rw [(List.cons.inj (text'.symm.trans text)).2, notNumber] at spelled
    contradiction
  | byFloat text' spelled =>
    have isFloat := (List.cons.inj (text.symm.trans text')).2
    rw [isFloat] at notFloat
    exact absurd (spelled.symm.trans (notFloat rfl)) (by simp)

/-- So does a text with a number behind `$f`. -/
theorem Denotes.of_float {n : Fin 32} (denotes : Denotes s b) (text : s.toList = '$' :: 'f' :: cs)
    (spelled : Text.readDecimal? cs = some (n.val : Int)) : b = .float n := by
  cases denotes with
  | byAlias text' listed =>
    exact (Denotes.of_alias (.byFloat text spelled) text' listed).symm
  | byNumber text' spelled' =>
    rw [(List.cons.inj (text'.symm.trans text)).2, readDecimal?_letter] at spelled'
    contradiction
  | byFloat text' spelled' =>
    have sameTail := (List.cons.inj (text'.symm.trans text)).2
    rw [(List.cons.inj sameTail).2, spelled] at spelled'
    rw [Fin.ext (Int.ofNat.inj (Option.some.inj spelled'))]

/-- A text denotes one register at most. -/
theorem Denotes.unique (first : Denotes s a) (second : Denotes s b) : a = b := by
  cases first with
  | byAlias text listed => exact (second.of_alias text listed).symm
  | byFloat text spelled => exact (second.of_float text spelled).symm
  | byNumber text spelled =>
    cases second with
    | byAlias text' listed => exact Denotes.of_alias (.byNumber text spelled) text' listed
    | byFloat text' spelled' => exact Denotes.of_float (.byNumber text spelled) text' spelled'
    | byNumber text' spelled' =>
      rw [(List.cons.inj (text'.symm.trans text)).2, spelled] at spelled'
      rw [Fin.ext (Int.ofNat.inj (Option.some.inj spelled'))]

/-! ## One name for each general register -/

/-- What a text that is read denotes, and what it is read as: a general register by its number, a
floating point register by its text. -/
theorem denotes_of_ofName? (read : ofName? s = some r) :
    (∃ n, r = .general n ∧ Denotes s (.general n)) ∨
      ∃ cs n, s.toList = '$' :: 'f' :: cs ∧ r = .float (String.ofList cs) ∧
        Denotes s (.float n) := by
  unfold ofName? at read
  split at read
  case h_2 => contradiction
  next cs text =>
  unfold ofBareName? at read
  split at read
  · next n isAlias =>
    obtain ⟨front, back, split, -⟩ := List.lookup_eq_some_iff.1 isAlias
    have listed : (String.ofList cs, n) ∈ aliases := by simp [split]
    refine Or.inl ⟨n, (Option.some.inj read).symm, .byAlias ?_ listed⟩
    rw [text, String.toList_ofList]
  · split at read
    · next m spelled =>
      split at read
      · obtain ⟨n, isNumber, rfl⟩ := Option.map_eq_some_iff.1 read
        rw [number?_eq_some isNumber] at spelled
        exact Or.inl ⟨n, rfl, .byNumber text spelled⟩
      · contradiction
    · split at read
      · next rest _ _ =>
        obtain ⟨n, isNumber, rfl⟩ := Option.map_eq_some_iff.1 read
        obtain ⟨m, spelled, small⟩ := Option.bind_eq_some_iff.1 isNumber
        rw [number?_eq_some small] at spelled
        exact Or.inr ⟨rest, n, text, rfl, .byFloat text spelled⟩
      · contradiction

/-- Registers that are read back from their names have different names. -/
theorem Named.inj (named : r.Named) (named' : q.Named) (same : r.name = q.name) : r = q := by
  have read : ofName? r.name = some r := named
  rw [same] at read
  exact Option.some.inj (read.symm.trans named')

/-- Two texts are read as one register if they denote one, unless it is a floating point register
and they spell its number differently. -/
theorem eq_iff_of_ofName? (readS : ofName? s = some r) (readT : ofName? t = some q)
    (isA : Denotes s a) (isB : Denotes t b) :
    r = q ↔ a = b ∧ (s = t ∨ ∃ n, a = .general n) := by
  rcases denotes_of_ofName? readS with ⟨n, rfl, isN⟩ | ⟨cs, n, textS, rfl, isN⟩
  · obtain rfl := isA.unique isN
    rcases denotes_of_ofName? readT with ⟨m, rfl, isM⟩ | ⟨-, m, -, rfl, isM⟩
    · obtain rfl := isB.unique isM
      simp
    · obtain rfl := isB.unique isM
      simp
  · obtain rfl := isA.unique isN
    rcases denotes_of_ofName? readT with ⟨m, rfl, isM⟩ | ⟨ds, m, textT, rfl, isM⟩
    · obtain rfl := isB.unique isM
      simp
    · constructor
      · intro same
        have sameText : s = t := by
          rw [← String.toList_inj, textS, textT, String.ofList_injective (Reg.float.inj same)]
        subst sameText
        exact ⟨isN.unique isB, Or.inl rfl⟩
      · rintro ⟨-, sameText | ⟨k, isGeneral⟩⟩
        · rw [← String.toList_inj, textS, textT] at sameText
          rw [(List.cons.inj (List.cons.inj sameText).2).2]
        · contradiction

/-- Reading a register's name gives the register again. A text that is read denotes one register of
the machine, and two of them are read as one name if and only if they denote one register and, if
that is a floating point register, spell its number in the same way. -/
theorem names_canonical (readS : ofName? s = some r) (readT : ofName? t = some q) :
    ofName? r.name = some r ∧ (∃! a, Denotes s a) ∧
    ∀ a b, Denotes s a → Denotes t b →
      (r.name = q.name ↔ a = b ∧ (s = t ∨ ∃ n, a = .general n)) := by
  have named := named_of_ofName? readS
  refine ⟨named, ?_, fun a b isA isB => ?_⟩
  · rcases denotes_of_ofName? readS with ⟨n, -, isN⟩ | ⟨-, n, -, -, isN⟩
    · exact ⟨_, isN, fun _ other => other.unique isN⟩
    · exact ⟨_, isN, fun _ other => other.unique isN⟩
  · have sameName : r.name = q.name ↔ r = q :=
      ⟨named.inj (named_of_ofName? readT), congrArg name⟩
    rw [sameName]
    exact eq_iff_of_ofName? readS readT isA isB

/-- The frame pointer by its number and by its second alias. -/
theorem names_canonical_frame :
    ∃ r q, ofName? "$30" = some r ∧ ofName? "$s8" = some q ∧ ofName? r.name = some r ∧
      Denotes "$30" (.general 30) ∧ Denotes "$s8" (.general 30) ∧ r.name = "$fp" ∧
      r.name = q.name := by
  have readS : ofName? "$30" = some (.general 30) := by decide +kernel
  have readT : ofName? "$s8" = some (.general 30) := by decide +kernel
  have isS : Denotes "$30" (.general 30) := @Denotes.byNumber _ ['3', '0'] 30 (by rfl) (by rfl)
  have isT : Denotes "$s8" (.general 30) := @Denotes.byAlias _ "s8" 30 (by rfl) (by decide)
  obtain ⟨named, -, same⟩ := names_canonical readS readT
  exact ⟨_, _, readS, readT, named, isS, isT, by rfl,
    (same _ _ isS isT).2 ⟨rfl, Or.inr ⟨30, rfl⟩⟩⟩

/-- A leading zero makes two registers of one: both texts are read, and denote the same floating
point register, but they are read as different names. -/
theorem float_names_differ :
    ∃ r q, ofName? "$f05" = some r ∧ ofName? "$f5" = some q ∧ Denotes "$f05" (.float 5) ∧
      Denotes "$f5" (.float 5) ∧ r.name ≠ q.name := by
  have readS : ofName? "$f05" = some (.float "05") := by decide +kernel
  have readT : ofName? "$f5" = some (.float "5") := by decide +kernel
  have isS : Denotes "$f05" (.float 5) := @Denotes.byFloat _ ['0', '5'] 5 (by rfl) (by rfl)
  have isT : Denotes "$f5" (.float 5) := @Denotes.byFloat _ ['5'] 5 (by rfl) (by rfl)
  exact ⟨_, _, readS, readT, isS, isT, by decide⟩

end Reg

end MipsFlow
