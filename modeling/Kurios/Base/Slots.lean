import Mathlib

/-!
Tables with a fixed number of slots.

A new element goes to the first free slot, an element is removed from the first slot that has
it, and a search returns the first that fits. `Holds n t S` says that the table holds the
elements of `S`, each in one slot.
-/

namespace Kurios.Base

open Function Option List

variable {α : Type*}

/-- The first free slot. -/
def freeSlot (n : Nat) (t : Nat → Option α) : Option Nat := (range n).find? fun i =>
  (t i).isNone

/-- The first element that fits. -/
def findSlot (n : Nat) (t : Nat → Option α) (fits : α → Bool) : Option α :=
  (range n).findSome? fun i => (t i).filter fits

/-- The table without an element. -/
def clearSlot [DecidableEq α] (n : Nat) (t : Nat → Option α) (a : α) : Nat → Option α :=
  match (range n).find? fun i => t i = some a with
  | none => t
  | some i => update t i none

structure Holds (n : Nat) (t : Nat → Option α) (S : α → Prop) : Prop where
  bound : ∀ {i a}, t i = some a → i < n
  mem : ∀ a, S a ↔ ∃ i, t i = some a
  once : ∀ {i j a}, t i = some a → t j = some a → i = j

namespace Holds

variable {n i : Nat} {t : Nat → Option α} {S : α → Prop} {a : α} {fits : α → Bool}

section

variable (h : Holds n t S)
include h

theorem congr {S'} (hS : ∀ a, S' a ↔ S a) : Holds n t S' :=
  ⟨h.bound, fun a => (hS a).trans (h.mem a), h.once⟩

theorem put (hi : freeSlot n t = some i) (ha : ¬ S a) :
    Holds n (update t i (some a)) fun b => S b ∨ b = a := by
  have hnone : t i = none := by simpa using find?_some hi
  have hold : ∀ {j b}, j ≠ i → update t i (some a) j = some b → t j = some b ∧ b ≠ a := by
    intro j b hj hb
    rw [update_of_ne hj] at hb
    exact ⟨hb, fun hab => ha ((h.mem a).mpr ⟨j, hab ▸ hb⟩)⟩
  have hnew : ∀ {b}, update t i (some a) i = some b → b = a := by simp +contextual
  refine ⟨fun {j b} hb => ?_, fun b => ⟨?_, ?_⟩, fun {j k b} hj hk => ?_⟩
  · by_cases hj : j = i
    · exact hj ▸ mem_range.mp (mem_of_find?_eq_some hi)
    · exact h.bound (hold hj hb).1
  · rintro (hb | rfl)
    · obtain ⟨j, hj⟩ := (h.mem b).mp hb
      refine ⟨j, (update_of_ne ?_ _ _).trans hj⟩
      rintro rfl
      cases hnone.symm.trans hj
    · exact ⟨i, update_self _ _ _⟩
  · rintro ⟨j, hb⟩
    by_cases hj : j = i
    · exact .inr (hnew (hj ▸ hb))
    · exact .inl ((h.mem b).mpr ⟨j, (hold hj hb).1⟩)
  by_cases hji : j = i <;> by_cases hki : k = i
  · exact hji.trans hki.symm
  · exact absurd (hnew (hji ▸ hj)) (hold hki hk).2
  · exact absurd (hnew (hki ▸ hk)) (hold hji hj).2
  · exact h.once (hold hji hj).1 (hold hki hk).1

theorem clearSlot_iff [DecidableEq α] {j b} :
    clearSlot n t a j = some b ↔ t j = some b ∧ b ≠ a := by
  unfold clearSlot
  cases hi : (range n).find? fun i => decide (t i = some a) with
  | none =>
    refine ⟨fun hb => ⟨hb, ?_⟩, And.left⟩
    rintro rfl
    simpa [hb] using find?_eq_none.mp hi j (mem_range.mpr (h.bound hb))
  | some i =>
    have hia : t i = some a := by simpa using find?_some hi
    change update t i none j = some b ↔ _
    by_cases hj : j = i
    · subst hj
      simp [hia, eq_comm]
    rw [update_of_ne hj]
    refine ⟨fun hb => ⟨hb, ?_⟩, And.left⟩
    rintro rfl
    exact hj (h.once hb hia)

theorem clear [DecidableEq α] (a : α) : Holds n (clearSlot n t a) fun b => S b ∧ b ≠ a where
  bound hb := h.bound (h.clearSlot_iff.mp hb).1
  mem b := by simp only [h.clearSlot_iff, h.mem, exists_and_right]
  once hb hb' := h.once (h.clearSlot_iff.mp hb).1 (h.clearSlot_iff.mp hb').1

/-- A slot that is cleared is free. -/
theorem freeSlot_clear [DecidableEq α] (ha : S a) : (freeSlot n (clearSlot n t a)).isSome := by
  obtain ⟨i, hi⟩ := (h.mem a).mp ha
  refine find?_isSome.mpr ⟨i, mem_range.mpr (h.bound hi), ?_⟩
  rw [isNone_iff_eq_none, eq_none_iff_forall_ne_some]
  intro b hb
  obtain ⟨hold, hne⟩ := h.clearSlot_iff.mp hb
  exact hne (some.inj (hold.symm.trans hi))

/-- If at most one element fits, the search finds it. -/
theorem find_iff (hone : ∀ a b, S a → S b → fits a → fits b → a = b) (a : α) :
    findSlot n t fits = some a ↔ S a ∧ fits a := by
  have hfound : ∀ {b}, findSlot n t fits = some b → S b ∧ fits b := by
    intro b hb
    obtain ⟨i, -, hi⟩ := exists_of_findSome?_eq_some hb
    obtain ⟨hti, hfit⟩ := filter_eq_some_iff.mp hi
    exact ⟨(h.mem b).mpr ⟨i, hti⟩, hfit⟩
  refine ⟨hfound, fun ⟨ha, hfit⟩ => ?_⟩
  obtain ⟨i, hi⟩ := (h.mem a).mp ha
  cases hr : findSlot n t fits with
  | none =>
    have hnone := findSome?_eq_none_iff.mp hr i (mem_range.mpr (h.bound hi))
    simp [hi, Option.filter, hfit] at hnone
  | some b =>
    obtain ⟨hb, hfit'⟩ := hfound hr
    rw [hone b a hb ha hfit' hfit]

end

end Holds

end Kurios.Base
