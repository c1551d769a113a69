import Mathlib

/-!
Finite maps as lists of pairs with different keys.

The order of the pairs does not matter for what is found (`toMap_eq_some_iff_mem`). An entry
more and an entry less are permutations, and `toMap_of_perm_cons` and `toMap_of_cons_perm`
say what they do to the map. The list may be spread over several parts; one of them changes
in `flatMap_perm_cons`.
-/

namespace Kurios.Base

open Function List Prod

variable {κ α ι : Type} {l l' : List (κ × α)} {k : κ} {x : α}

/-- The keys of the entries. -/
def keys (l : List (κ × α)) : List κ := l.map fst

variable [DecidableEq κ]

/-- What is found under a key. -/
def toMap (l : List (κ × α)) (k : κ) : Option α := l.lookup k

theorem toMap_cons_self (k : κ) (x : α) (l : List (κ × α)) : toMap ((k, x) :: l) k = some x :=
  lookup_cons_self

theorem toMap_cons_of_ne {k'} (h : k ≠ k') (x : α) (l : List (κ × α)) :
    toMap ((k', x) :: l) k = toMap l k := by
  rw [toMap, lookup_cons, beq_eq_false_iff_ne.mpr h]
  rfl

theorem toMap_eq_none_iff : toMap l k = none ↔ k ∉ keys l := by
  simp only [toMap, lookup_eq_none_iff, bne_iff_ne, keys, mem_map, not_exists, not_and]
  exact forall₂_congr fun _ _ => ne_comm

theorem mem_of_toMap_eq_some (h : toMap l k = some x) : (k, x) ∈ l := by
  obtain ⟨before, after, rfl, -⟩ := lookup_eq_some_iff.mp h
  exact mem_append_right _ mem_cons_self

section

variable (h : (keys l).Nodup)
include h

theorem toMap_eq_some_iff_mem : toMap l k = some x ↔ (k, x) ∈ l := by
  refine ⟨mem_of_toMap_eq_some, fun hmem => ?_⟩
  obtain ⟨before, after, rfl⟩ := append_of_mem hmem
  refine lookup_eq_some_iff.mpr ⟨before, after, rfl, fun p hp => bne_iff_ne.mpr ?_⟩
  -- A pair with the same key before the entry would be a second one.
  rintro rfl
  rw [keys, map_append, map_cons] at h
  have hnot := (nodup_cons.mp (nodup_middle.mp h)).1
  exact hnot (mem_append_left _ (mem_map.mpr ⟨p, hp, rfl⟩))

theorem toMap_of_perm (hperm : l'.Perm l) (k : κ) : toMap l' k = toMap l k := by
  have hnd : (keys l').Nodup := (hperm.map fst).nodup_iff.mpr h
  apply Option.ext
  intro x
  rw [toMap_eq_some_iff_mem h, toMap_eq_some_iff_mem hnd, hperm.mem_iff]

/-- An entry more. -/
theorem toMap_of_perm_cons (hnew : k ∉ keys l)
    (hperm : l'.Perm ((k, x) :: l)) : (keys l').Nodup ∧ toMap l' = update (toMap l) k (some x) := by
  have hnd : (keys ((k, x) :: l)).Nodup := nodup_cons.mpr ⟨hnew, h⟩
  refine ⟨(hperm.map fst).nodup_iff.mpr hnd, ?_⟩
  funext k'
  rw [toMap_of_perm hnd hperm]
  by_cases heq : k' = k
  · subst heq
    rw [toMap_cons_self, update_self]
  · rw [toMap_cons_of_ne heq, update_of_ne heq]

/-- An entry less. -/
theorem toMap_of_cons_perm (hperm : l.Perm ((k, x) :: l')) :
    (keys l').Nodup ∧ toMap l' = update (toMap l) k none := by
  have hnd := (hperm.map fst).nodup_iff.mp h
  obtain ⟨hnot, hrest⟩ := nodup_cons.mp hnd
  refine ⟨hrest, ?_⟩
  funext k'
  by_cases heq : k' = k
  · subst heq
    rw [update_self]
    exact toMap_eq_none_iff.mpr hnot
  · rw [update_of_ne heq, toMap_of_perm hnd hperm, toMap_cons_of_ne heq]

end

/-! ### Maps in several parts -/

theorem toMap_append (l l' : List (κ × α)) (k : κ) :
    toMap (l ++ l') k = (toMap l k).or (toMap l' k) := lookup_append

/-- The first part with the key has the entry. -/
theorem toMap_flatMap (is : List ι) (f : ι → List (κ × α)) (k : κ) :
    toMap (is.flatMap f) k = is.findSome? fun i => toMap (f i) k := by
  induction is with
  | nil => rfl
  | cons i is ih =>
    rw [flatMap_cons, toMap_append, ih, List.findSome?_cons]
    cases toMap (f i) k <;> rfl

omit [DecidableEq κ] in
/-- One part gets an entry. -/
theorem flatMap_perm_cons {f g : ι → List α} {is : List ι} {i : ι} {x : α} (hnd : is.Nodup)
    (hi : i ∈ is) (hpart : (g i).Perm (x :: f i)) (hoth : ∀ j ∈ is, j ≠ i → g j = f j) :
    (is.flatMap g).Perm (x :: is.flatMap f) := by
  obtain ⟨xs, ys, rfl⟩ := append_of_mem hi
  have hnot : i ∉ xs ++ ys := (nodup_middle.mp hnd |> nodup_cons.mp).1
  have hsame : ∀ zs : List ι, (∀ j ∈ zs, j ∈ xs ++ ys) → zs.flatMap g = zs.flatMap f := by
    intro zs hzs
    refine flatMap_congr fun j hj => hoth j ?_ ?_
    · have hmem := hzs j hj
      simp only [mem_append, mem_cons] at hmem ⊢
      exact hmem.imp_right .inr
    · rintro rfl
      exact hnot (hzs j hj)
  rw [flatMap_append, flatMap_append, flatMap_cons, flatMap_cons,
    hsame xs fun j hj => mem_append_left ys hj,
    hsame ys fun j hj => mem_append_right xs hj]
  refine ((hpart.append_right _).append_left _).trans ?_
  exact perm_middle

end Kurios.Base
