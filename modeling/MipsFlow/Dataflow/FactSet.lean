/-!
# Sets of facts

A set of facts is a list that is looked at through membership. Inserting keeps the list free of
repetitions; the order of the members is not part of the set, and is fixed only when it is listed.
-/

namespace MipsFlow

/-- A finite set of facts. -/
structure FactSet (α : Type) where
  members : List α
deriving Repr

namespace FactSet

variable {α : Type} [DecidableEq α]

instance : Membership α (FactSet α) := ⟨fun s a => a ∈ s.members⟩

instance (a : α) (s : FactSet α) : Decidable (a ∈ s) := inferInstanceAs (Decidable (a ∈ s.members))

/-- The set without members. -/
def empty : FactSet α := ⟨[]⟩

/-- The fact is in the set. -/
def contains (s : FactSet α) (a : α) : Bool := s.members.contains a

/-- Adds a fact. -/
def insert (s : FactSet α) (a : α) : FactSet α :=
  if s.contains a then s else ⟨a :: s.members⟩

/-- Adds every fact of a list. -/
def insertAll (s : FactSet α) (as : List α) : FactSet α := as.foldl insert s

/-- The set of the facts in a list. -/
def ofList (as : List α) : FactSet α := insertAll empty as

/-- Removes a fact. -/
def erase (s : FactSet α) (a : α) : FactSet α := ⟨s.members.filter (· ≠ a)⟩

/-- Keeps the facts with the property. -/
def filter (s : FactSet α) (property : α → Bool) : FactSet α := ⟨s.members.filter property⟩

/-- The facts of either set. -/
def union (s t : FactSet α) : FactSet α := ⟨s.members ++ (t.filter fun a => !s.contains a).members⟩

/-- The facts of both sets. -/
def inter (s t : FactSet α) : FactSet α := s.filter t.contains

/-- The facts of the first set that are not in the second. -/
def diff (s t : FactSet α) : FactSet α := s.filter fun a => !t.contains a

/-- Every fact of the first set is in the second. -/
def isSubset (s t : FactSet α) : Bool := s.members.all t.contains

/-- The two sets have the same facts. -/
def sameAs (s t : FactSet α) : Bool := s.isSubset t && t.isSubset s

/-! ## Membership -/

variable {s t : FactSet α} {a b : α}

omit [DecidableEq α] in
theorem mem_def : a ∈ s ↔ a ∈ s.members := Iff.rfl

@[simp] theorem contains_iff : s.contains a = true ↔ a ∈ s := by
  simp [contains, mem_def]

omit [DecidableEq α] in
@[simp] theorem not_mem_empty : a ∉ (empty : FactSet α) := by
  simp [empty, mem_def]

@[simp] theorem mem_insert : a ∈ s.insert b ↔ a = b ∨ a ∈ s := by
  unfold insert
  split
  · next present =>
    constructor
    · exact Or.inr
    · rintro (rfl | member)
      · exact contains_iff.1 present
      · exact member
  · simp [mem_def]

@[simp] theorem mem_insertAll {as : List α} : a ∈ s.insertAll as ↔ a ∈ as ∨ a ∈ s := by
  induction as generalizing s with
  | nil => simp [insertAll]
  | cons b bs ih =>
    have step : s.insertAll (b :: bs) = (s.insert b).insertAll bs := rfl
    rw [step, ih, mem_insert, List.mem_cons]
    constructor
    · rintro (member | rfl | member)
      · exact Or.inl (Or.inr member)
      · exact Or.inl (Or.inl rfl)
      · exact Or.inr member
    · rintro ((rfl | member) | member)
      · exact Or.inr (Or.inl rfl)
      · exact Or.inl member
      · exact Or.inr (Or.inr member)

@[simp] theorem mem_ofList {as : List α} : a ∈ ofList as ↔ a ∈ as := by
  simp [ofList]

omit [DecidableEq α] in
@[simp] theorem mem_filter {property : α → Bool} :
    a ∈ s.filter property ↔ a ∈ s ∧ property a = true := by
  simp [filter, mem_def]

@[simp] theorem mem_union : a ∈ s.union t ↔ a ∈ s ∨ a ∈ t := by
  by_cases member : a ∈ s
  · simp only [member, true_or, iff_true]
    exact List.mem_append_left _ member
  · have absent : s.contains a = false := by
      rw [Bool.eq_false_iff]
      exact fun present => member (contains_iff.1 present)
    have append : a ∈ s.union t ↔ a ∈ s ∨ a ∈ t.filter fun a => !s.contains a := List.mem_append
    rw [append, mem_filter, absent]
    simp

@[simp] theorem mem_inter : a ∈ s.inter t ↔ a ∈ s ∧ a ∈ t := by
  simp [inter]

@[simp] theorem mem_diff : a ∈ s.diff t ↔ a ∈ s ∧ a ∉ t := by
  simp [diff, Bool.eq_false_iff]

theorem isSubset_iff : s.isSubset t = true ↔ ∀ a ∈ s, a ∈ t := by
  simp only [isSubset, List.all_eq_true, contains_iff]
  exact Iff.rfl

theorem sameAs_iff : s.sameAs t = true ↔ ∀ a, a ∈ s ↔ a ∈ t := by
  simp only [sameAs, Bool.and_eq_true, isSubset_iff]
  constructor
  · rintro ⟨forward, backward⟩ a
    exact ⟨forward a, backward a⟩
  · intro same
    exact ⟨fun a => (same a).1, fun a => (same a).2⟩

/-! ## Listing -/

/-- The facts in the order of their texts. -/
def sorted (s : FactSet α) (text : α → String) : List α :=
  s.members.mergeSort fun a b => !(text b < text a)

/-- The texts of the facts, sorted and in braces. -/
def render (s : FactSet α) (text : α → String) : String :=
  "\x7b" ++ ", ".intercalate ((s.sorted text).map text) ++ "\x7d"

end FactSet

end MipsFlow
