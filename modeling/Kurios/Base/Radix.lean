import Mathlib

/-!
Forests of radix tables.

A table has `fan` cells, each of which may point to a table of the level below. Each
owner has one tree, whose root is a table of level `top`. The tables of one level
are numbered in key order: below table `n`, cell `i` leads to table `n * fan + i`.
Only the first `width l` numbers of level `l` belong to the forest.

A `Radix` says which table stands where, and `Shape` that this is what the pointers
say and that no table stands in two places. The results are what the pointer writes
of a table walk do to a shape: writes outside the upper levels do nothing, linking
an empty table adds one place, and trees come and go with their roots.
-/

namespace Kurios.Base

open Function Option

variable {O N : Type*} {l n key : Nat} {o o' : O} {t u : N}

/-- The table of each owner at a level and number. -/
structure Radix (O N : Type*) where
  node : O → Nat → Nat → Option N

/-- The dimensions of the trees. -/
structure RadixDims where
  fan : Nat
  top : Nat
  width : Nat → Nat
  width_top : width top = 1
  width_step : ∀ l n, l < top → n < width l → n / fan < width (l + 1)

namespace Radix

/-- The table stands somewhere. -/
def Has (R : Radix O N) (t : N) : Prop := ∃ o l n, R.node o l n = some t

/-- The tables are where the pointers `child` from the roots lead to. -/
structure Shape (D : RadixDims) (R : Radix O N) (root : O → Option N)
    (child : N → Nat → Option N) : Prop where
  root : ∀ o, R.node o D.top 0 = root o
  link : ∀ o l n, l < D.top → n < D.width l →
    R.node o l n = (R.node o (l + 1) (n / D.fan)).bind (child · (n % D.fan))
  inside : ∀ o l n t, R.node o l n = some t → l ≤ D.top ∧ n < D.width l
  inj : ∀ o l n o' l' n' t, R.node o l n = some t → R.node o' l' n' = some t →
    o' = o ∧ l' = l ∧ n' = n

variable {D : RadixDims} {R : Radix O N} {root : O → Option N} {child child' : N → Nat → Option N}

/-- The pointers below level 0 do not matter. -/
theorem Shape.frame (h : Shape D R root child)
    (hsame : ∀ o l n t, R.node o (l + 1) n = some t → ∀ i, child' t i = child t i) :
    Shape D R root child' where
  __ := h
  link o l n hl hn := by
    rw [h.link o l n hl hn]
    cases hnode : R.node o (l + 1) (n / D.fan) with
    | none => rfl
    | some t => exact (hsame o l _ t hnode _).symm

/-! ### Growing -/

section Set

variable [DecidableEq O]

/-- Table `t` is put at a place. -/
def set (R : Radix O N) (o : O) (l n : Nat) (t : N) : Radix O N where
  node o' l' n' := if o' = o ∧ l' = l ∧ n' = n then some t else R.node o' l' n'

theorem set_self (R : Radix O N) (o : O) (l n : Nat) (t : N) :
    (R.set o l n t).node o l n = some t := by
  simp [set]

theorem set_of_ne (R : Radix O N) {l' n'} (t : N) (h : ¬ (o' = o ∧ l' = l ∧ n' = n)) :
    (R.set o l n t).node o' l' n' = R.node o' l' n' :=
  if_neg h

theorem has_set (hfree : R.node o l n = none) : (R.set o l n t).Has u ↔ u = t ∨ R.Has u := by
  constructor
  · rintro ⟨o', l', n', h⟩
    by_cases hp : o' = o ∧ l' = l ∧ n' = n
    · obtain ⟨rfl, rfl, rfl⟩ := hp
      rw [set_self] at h
      exact .inl (some.inj h).symm
    · rw [set_of_ne R t hp] at h
      exact .inr ⟨o', l', n', h⟩
  rintro (rfl | ⟨o', l', n', h⟩)
  · exact ⟨o, l, n, set_self R o l n u⟩
  refine ⟨o', l', n', ?_⟩
  rw [set_of_ne R t, h]
  rintro ⟨rfl, rfl, rfl⟩
  rw [hfree] at h
  cases h

/-- The part of the shape that does not depend on the pointers. -/
theorem Shape.set_inj (h : Shape D R root child) (ht : ¬ R.Has t) {o1 o2 l1 n1 l2 n2}
    (h1 : (R.set o l n t).node o1 l1 n1 = some u) (h2 : (R.set o l n t).node o2 l2 n2 = some u) :
    o2 = o1 ∧ l2 = l1 ∧ n2 = n1 := by
  by_cases hp1 : o1 = o ∧ l1 = l ∧ n1 = n
  · by_cases hp2 : o2 = o ∧ l2 = l ∧ n2 = n
    · exact ⟨hp2.1.trans hp1.1.symm, hp2.2.1.trans hp1.2.1.symm, hp2.2.2.trans hp1.2.2.symm⟩
    obtain ⟨rfl, rfl, rfl⟩ := hp1
    rw [set_self] at h1
    rw [set_of_ne R t hp2] at h2
    exact absurd ⟨o2, l2, n2, some.inj h1 ▸ h2⟩ ht
  rw [set_of_ne R t hp1] at h1
  by_cases hp2 : o2 = o ∧ l2 = l ∧ n2 = n
  · obtain ⟨rfl, rfl, rfl⟩ := hp2
    rw [set_self] at h2
    exact absurd ⟨o1, l1, n1, some.inj h2 ▸ h1⟩ ht
  · rw [set_of_ne R t hp2] at h2
    exact h.inj _ _ _ _ _ _ _ h1 h2

/-- A table that is nowhere yet and empty is linked into an empty cell. -/
theorem Shape.grow (h : Shape D R root child) (hl : l < D.top) (hn : n < D.width l)
    (hpar : R.node o (l + 1) (n / D.fan) = some u) (hemp : child u (n % D.fan) = none)
    (ht : ¬ R.Has t) (hcell : child' u (n % D.fan) = some t)
    (hsame : ∀ v i, R.Has v → ¬ (v = u ∧ i = n % D.fan) → child' v i = child v i)
    (hnew : ∀ i, child' t i = none) : Shape D (R.set o l n t) root child' := by
  have hfree : R.node o l n = none := by rw [h.link o l n hl hn, hpar, bind_some, hemp]
  refine ⟨fun o' => ?_, fun o' l' n' hl' hn' => ?_, fun o' l' n' v hv => ?_,
    fun _ _ _ _ _ _ _ => h.set_inj ht⟩
  · rw [set_of_ne R t fun hp => Nat.ne_of_lt hl hp.2.1.symm, h.root]
  · by_cases hp : o' = o ∧ l' = l ∧ n' = n
    · obtain ⟨rfl, rfl, rfl⟩ := hp
      rw [set_self, set_of_ne R t (by omega), hpar, bind_some, hcell]
    rw [set_of_ne R t hp, h.link o' l' n' hl' hn']
    by_cases hq : o' = o ∧ l' + 1 = l ∧ n' / D.fan = n
    · -- Below the new place there was nothing, and the new table is empty.
      obtain ⟨rfl, rfl, rfl⟩ := hq
      rw [set_self, hfree, bind_some, hnew]
      rfl
    rw [set_of_ne R t hq]
    cases hnode : R.node o' (l' + 1) (n' / D.fan) with
    | none => rfl
    | some v =>
      refine (hsame v _ ⟨o', l' + 1, _, hnode⟩ ?_).symm
      rintro ⟨rfl, hi⟩
      obtain ⟨rfl, hl1, hd⟩ := h.inj _ _ _ _ _ _ _ hpar hnode
      refine hp ⟨rfl, by omega, ?_⟩
      rw [← Nat.div_add_mod n' D.fan, ← Nat.div_add_mod n D.fan, hi, hd]
  by_cases hp : o' = o ∧ l' = l ∧ n' = n
  · obtain ⟨rfl, rfl, rfl⟩ := hp
    exact ⟨le_of_lt hl, hn⟩
  · rw [set_of_ne R t hp] at hv
    exact h.inside _ _ _ _ hv

/-- An empty table becomes the root of an owner that has no tree. Cells beyond the
width of the next level may hold anything. -/
theorem Shape.plant (h : Shape D R root child) (hroot : root o = none) (ht : ¬ R.Has t)
    (hsame : ∀ v i, R.Has v → child' v i = child v i)
    (hnew : ∀ l n, l + 1 = D.top → n < D.width l → child' t (n % D.fan) = none) :
    Shape D (R.set o D.top 0 t) (update root o (some t)) child' := by
  have hfree : R.node o D.top 0 = none := by rw [h.root, hroot]
  refine ⟨fun o' => ?_, fun o' l' n' hl' hn' => ?_, fun o' l' n' v hv => ?_,
    fun _ _ _ _ _ _ _ => h.set_inj ht⟩
  · by_cases ho : o' = o
    · subst ho
      rw [set_self, update_self]
    · rw [set_of_ne R t fun hp => ho hp.1, update_of_ne ho, h.root]
  · rw [set_of_ne R t fun hp => Nat.ne_of_lt hl' hp.2.1, h.link o' l' n' hl' hn']
    by_cases hq : o' = o ∧ l' + 1 = D.top ∧ n' / D.fan = 0
    · rw [hq.1, hq.2.1, hq.2.2, set_self, hfree, bind_some, hnew l' n' hq.2.1 hn']
      rfl
    rw [set_of_ne R t hq]
    cases hnode : R.node o' (l' + 1) (n' / D.fan) with
    | none => rfl
    | some v => exact (hsame v _ ⟨o', l' + 1, _, hnode⟩).symm
  by_cases hp : o' = o ∧ l' = D.top ∧ n' = 0
  · obtain ⟨rfl, rfl, rfl⟩ := hp
    exact ⟨le_refl _, by rw [D.width_top]; exact one_pos⟩
  · rw [set_of_ne R t hp] at hv
    exact h.inside _ _ _ _ hv

/-! ### Felling -/

/-- The tree of an owner is forgotten. -/
def drop (R : Radix O N) (o : O) : Radix O N where
  node o' l n := if o' = o then none else R.node o' l n

theorem drop_self (R : Radix O N) (o : O) (l n : Nat) : (R.drop o).node o l n = none := if_pos rfl

theorem drop_of_ne (R : Radix O N) (h : o' ≠ o) (l n : Nat) :
    (R.drop o).node o' l n = R.node o' l n :=
  if_neg h

theorem node_of_drop (h : (R.drop o).node o' l n = some t) : o' ≠ o ∧ R.node o' l n = some t := by
  by_cases ho : o' = o
  · subst ho
    rw [drop_self] at h
    cases h
  · rw [drop_of_ne R ho] at h
    exact ⟨ho, h⟩

theorem Shape.fell (h : Shape D R root child) (o : O) :
    Shape D (R.drop o) (update root o none) child := by
  refine ⟨fun o' => ?_, fun o' l n hl hn => ?_, fun o' l n t ht => ?_,
    fun o1 l1 n1 o2 l2 n2 t h1 h2 => ?_⟩
  · by_cases ho : o' = o
    · subst ho
      rw [drop_self, update_self]
    · rw [drop_of_ne R ho, update_of_ne ho, h.root]
  · by_cases ho : o' = o
    · subst ho
      rw [drop_self, drop_self]
      rfl
    · rw [drop_of_ne R ho, drop_of_ne R ho, h.link o' l n hl hn]
  · exact h.inside _ _ _ _ (node_of_drop ht).2
  · exact h.inj _ _ _ _ _ _ _ (node_of_drop h1).2 (node_of_drop h2).2

end Set

/-- An owner without a root has no tables. -/
theorem Shape.node_none (h : Shape D R root child) (hroot : root o = none) (l n : Nat) :
    R.node o l n = none := by
  cases hnode : R.node o l n with
  | none => rfl
  | some t =>
    -- Down from the root, nothing below an empty place is a table.
    have hall : ∀ d l n, l + d = D.top → n < D.width l → R.node o l n = none := by
      intro d
      induction d with
      | zero =>
        intro l n hl hn
        obtain rfl : l = D.top := by omega
        rw [D.width_top] at hn
        obtain rfl : n = 0 := by omega
        rw [h.root, hroot]
      | succ d ih =>
        intro l n hl hn
        have hlt : l < D.top := by omega
        rw [h.link o l n hlt hn, ih (l + 1) _ (by omega) (D.width_step l n hlt hn)]
        rfl
    obtain ⟨hl, hn⟩ := h.inside _ _ _ _ hnode
    rw [hall (D.top - l) l n (by omega) hn] at hnode
    cases hnode

/-- Nothing is below an empty place. -/
theorem Shape.none_under (h : Shape D R root child) {p} (hl : l ≤ D.top)
    (hnone : R.node o l p = none) {k q} (hk : k ≤ l) (hq : q / D.fan ^ (l - k) = p) :
    R.node o k q = none := by
  obtain ⟨d, rfl⟩ := Nat.exists_eq_add_of_le hk
  rw [Nat.add_sub_cancel_left] at hq
  induction d generalizing k q with
  | zero =>
    rw [Nat.pow_zero, Nat.div_one] at hq
    rwa [hq]
  | succ d ih =>
    by_cases hwidth : q < D.width k
    · rw [h.link o k q (by omega) hwidth]
      have hstep : k + 1 + d = k + (d + 1) := by omega
      have hdiv : q / D.fan / D.fan ^ d = p := by
        rw [Nat.div_div_eq_div_mul, ← Nat.pow_succ']
        exact hq
      rw [ih (by omega) (hstep ▸ hnone) (by omega) hdiv]
      rfl
    · cases hnode : R.node o k q with
      | none => rfl
      | some t => exact absurd (h.inside _ _ _ _ hnode).2 hwidth

/-! ### Walking down -/

/-- The number on level `l` of the table that leads to table `key` of level 0. -/
theorem place_width (D : RadixDims) (hkey : key < D.width 0) (hl : l ≤ D.top) :
    key / D.fan ^ l < D.width l := by
  induction l with
  | zero => simpa using hkey
  | succ l ih =>
    rw [Nat.pow_succ, ← Nat.div_div_eq_div_mul]
    exact D.width_step l _ hl (ih (le_of_lt hl))

/-- One step of the walk to table `key` of level 0. -/
theorem Shape.step (h : Shape D R root child) (o : O) (hkey : key < D.width 0)
    (hl : l < D.top) : R.node o l (key / D.fan ^ l) =
      (R.node o (l + 1) (key / D.fan ^ (l + 1))).bind (child · (key / D.fan ^ l % D.fan)) := by
  rw [h.link o l _ hl (place_width D hkey (le_of_lt hl)), Nat.div_div_eq_div_mul, ← Nat.pow_succ]

/-- A walk that ends early leads nowhere. -/
theorem Shape.none_below (h : Shape D R root child) (hkey : key < D.width 0) (hl : l ≤ D.top)
    (hnone : R.node o l (key / D.fan ^ l) = none) : R.node o 0 key = none := by
  induction l with
  | zero => simpa using hnone
  | succ l ih =>
    refine ih (le_of_lt hl) ?_
    rw [h.step o hkey hl, hnone]
    rfl

end Radix

end Kurios.Base
