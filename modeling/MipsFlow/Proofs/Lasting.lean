import Mathlib.Data.List.Induction
import Mathlib.Tactic.Tauto

/-!
# What lasts along a trail

A trail is a list of things that happen one after the other, such as the instructions of a block or
the blocks of a path. Some of them make a fact, some undo it. The fact *lasts* if something makes it
and nothing behind that undoes it. Whether it does is settled from the end of the trail
(`Lasts.append_iff`), and a trail of trails can be looked at as a whole or piece by piece
(`Lasts.flatMap_iff`).
-/

namespace MipsFlow

/-- Something on the trail makes it so, and nothing behind that undoes it. -/
def Lasts {β : Type} (made lost : β → Prop) (trail : List β) : Prop :=
  ∃ before x after, trail = before ++ x :: after ∧ made x ∧ ∀ y ∈ after, ¬ lost y

namespace Lasts

variable {β γ : Type} {made lost : β → Prop} {first second trail : List β} {x : β}

@[simp] theorem not_nil : ¬ Lasts made lost [] := by
  rintro ⟨before, x, after, split, -⟩
  simp at split

theorem append_iff : Lasts made lost (first ++ second) ↔
    Lasts made lost second ∨ (∀ y ∈ second, ¬ lost y) ∧ Lasts made lost first := by
  constructor
  · rintro ⟨before, x, after, split, isMade, kept⟩
    rcases List.append_eq_append_iff.1 split with
      ⟨between, -, rfl⟩ | ⟨_ | ⟨y, between⟩, rfl, behind⟩
    · exact Or.inl ⟨between, x, after, rfl, isMade, kept⟩
    · exact Or.inl ⟨[], x, after, behind.symm, isMade, kept⟩
    · obtain ⟨rfl, rfl⟩ := List.cons.inj behind
      exact Or.inr ⟨fun y member => kept y (List.mem_append_right _ member), before, x, between,
        rfl, isMade, fun y member => kept y (List.mem_append_left _ member)⟩
  · rintro (⟨before, x, after, rfl, isMade, kept⟩ | ⟨none, before, x, after, rfl, isMade, kept⟩)
    · exact ⟨first ++ before, x, after, by simp, isMade, kept⟩
    · refine ⟨before, x, after ++ second, by simp, isMade, fun y member => ?_⟩
      exact (List.mem_append.1 member).elim (kept y) (none y)

@[simp] theorem singleton_iff : Lasts made lost [x] ↔ made x := by
  constructor
  · rintro ⟨_ | ⟨z, before⟩, y, after, split, isMade, -⟩
    · rwa [(List.cons.inj split).1]
    · simp at split
  · exact fun isMade => ⟨[], x, [], rfl, isMade, by simp⟩

theorem cons_iff : Lasts made lost (x :: trail) ↔
    Lasts made lost trail ∨ (∀ y ∈ trail, ¬ lost y) ∧ made x := by
  rw [← List.singleton_append, append_iff, singleton_iff]

theorem concat_iff : Lasts made lost (trail ++ [x]) ↔
    made x ∨ ¬ lost x ∧ Lasts made lost trail := by
  simp [append_iff]

/-- Pieces of a trail make what lasts in them, and undo what something in them undoes. -/
theorem flatMap_iff (pieces : γ → List β) (route : List γ) :
    Lasts made lost (route.flatMap pieces) ↔
      Lasts (fun z => Lasts made lost (pieces z)) (fun z => ∃ y ∈ pieces z, lost y) route := by
  induction route using List.reverseRecOn with
  | nil => simp
  | append_singleton route z ih =>
    rw [List.flatMap_append, append_iff, concat_iff, ih]
    simp

theorem congr {made' lost' : β → Prop} (sameMade : ∀ x ∈ trail, made x ↔ made' x)
    (sameLost : ∀ x ∈ trail, lost x ↔ lost' x) :
    Lasts made lost trail ↔ Lasts made' lost' trail := by
  induction trail with
  | nil => simp
  | cons x trail ih =>
    rw [cons_iff, cons_iff, ih (fun y member => sameMade y (List.mem_cons_of_mem _ member))
      (fun y member => sameLost y (List.mem_cons_of_mem _ member)),
      sameMade x (List.mem_cons_self ..)]
    refine or_congr_right (and_congr_left fun _ => forall₂_congr fun y member => ?_)
    exact not_congr (sameLost y (List.mem_cons_of_mem _ member))

/-- What lasts was made last by something behind which nothing makes it again. -/
theorem iff_made_last : Lasts made lost trail ↔ Lasts made (fun x => lost x ∨ made x) trail := by
  induction trail using List.reverseRecOn with
  | nil => simp
  | append_singleton trail x ih =>
    rw [concat_iff, concat_iff, ih]
    tauto

/-- What nothing undoes without making it lasts if it is made. -/
theorem of_mem (remade : ∀ y ∈ trail, lost y → made y) (member : x ∈ trail) (isMade : made x) :
    Lasts made lost trail := by
  induction trail using List.reverseRecOn with
  | nil => simp at member
  | append_singleton trail y ih =>
    rw [concat_iff]
    by_cases madeLast : made y
    · exact Or.inl madeLast
    · refine Or.inr ⟨fun undone => madeLast (remade y (by simp) undone), ih ?_ ?_⟩
      · exact fun z inside => remade z (List.mem_append_left _ inside)
      · rcases List.mem_append.1 member with inside | isLast
        · exact inside
        · rw [List.mem_singleton.1 isLast] at isMade
          contradiction

end Lasts

end MipsFlow
