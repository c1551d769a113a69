import Mathlib

/-!
Counting the references to a value.

`hits keys ref x` is how many of the keys refer to `x`, where `ref` says what each key
refers to. The lemmas say how the count moves with an update of one key and with the
set of keys, and what a count of one means.
-/

namespace Kurios.Base

open Function Finset

variable {K F : Type*} [DecidableEq F] {k : K}

/-- The number of keys that refer to `x`. -/
def hits (keys : Finset K) (ref : K → Option F) (x : F) : Nat :=
  (keys.filter fun k => ref k = some x).card

variable {keys keys' : Finset K} {ref ref' : K → Option F} {x : F}

theorem hits_congr (h : ∀ k ∈ keys, ref' k = some x ↔ ref k = some x) :
    hits keys ref' x = hits keys ref x := by
  unfold hits
  rw [filter_congr h]

theorem hits_pos_iff : 0 < hits keys ref x ↔ ∃ k ∈ keys, ref k = some x := by
  rw [hits, card_pos]
  constructor
  · rintro ⟨k, hk⟩
    exact ⟨k, (mem_filter.mp hk).1, (mem_filter.mp hk).2⟩
  · rintro ⟨k, hk, hx⟩
    exact ⟨k, mem_filter.mpr ⟨hk, hx⟩⟩

theorem hits_eq_zero (h : ∀ k ∈ keys, ref k ≠ some x) : hits keys ref x = 0 := by
  by_contra hne
  obtain ⟨k, hk, hx⟩ := hits_pos_iff.mp (Nat.pos_of_ne_zero hne)
  exact h k hk hx

/-- Two keys that refer to the same value are two hits. -/
theorem eq_of_hits_le_one (h : hits keys ref x ≤ 1) {j} (hj : j ∈ keys) (hk : k ∈ keys)
    (hjx : ref j = some x) (hkx : ref k = some x) : j = k :=
  card_le_one.mp h j (mem_filter.mpr ⟨hj, hjx⟩) k (mem_filter.mpr ⟨hk, hkx⟩)

/-- One more key. -/
theorem hits_insert [DecidableEq K] (hk : k ∉ keys) (ref : K → Option F) (x : F) :
    hits (insert k keys) ref x = hits keys ref x + if ref k = some x then 1 else 0 := by
  unfold hits
  rw [filter_insert]
  split
  · exact card_insert_of_notMem fun hmem => hk (mem_filter.mp hmem).1
  · rfl

/-- One key less. -/
theorem hits_erase [DecidableEq K] (hk : k ∈ keys) (ref : K → Option F) (x : F) :
    hits keys ref x = hits (keys.erase k) ref x + if ref k = some x then 1 else 0 := by
  conv_lhs => rw [← insert_erase hk]
  exact hits_insert (notMem_erase k keys) ref x

/-- One key is redirected. -/
theorem hits_update [DecidableEq K] (hk : k ∈ keys) (ref : K → Option F) (value : Option F)
    (x : F) :
    hits keys (update ref k value) x + (if ref k = some x then 1 else 0) =
      hits keys ref x + (if value = some x then 1 else 0) := by
  have hrest : hits (keys.erase k) (update ref k value) x = hits (keys.erase k) ref x := by
    refine hits_congr fun j hj => ?_
    rw [update_of_ne (ne_of_mem_erase hj)]
  rw [hits_erase hk ref, hits_erase hk (update ref k value), hrest, update_self]
  omega

/-- Keys that refer to something else do not count. -/
theorem hits_set [DecidableEq K] (hk : k ∈ keys) (hfree : ref k = none) (a x : F) :
    hits keys (update ref k (some a)) x = hits keys ref x + if a = x then 1 else 0 := by
  simpa [hfree] using hits_update hk ref (some a) x

theorem hits_clear [DecidableEq K] {a} (hk : k ∈ keys) (ha : ref k = some a) (x : F) :
    hits keys (update ref k none) x + (if a = x then 1 else 0) = hits keys ref x := by
  simpa [ha] using hits_update hk ref none x

theorem hits_of_subset (hsub : keys ⊆ keys') (h : ∀ k ∈ keys', k ∉ keys → ref k ≠ some x) :
    hits keys' ref x = hits keys ref x := by
  unfold hits
  congr 1
  ext k
  simp only [mem_filter]
  constructor <;> rintro ⟨hk, hx⟩
  · by_cases hin : k ∈ keys
    · exact ⟨hin, hx⟩
    · exact absurd hx (h k hk hin)
  · exact ⟨hsub hk, hx⟩

theorem hits_union [DecidableEq K] (hdisj : Disjoint keys keys') :
    hits (keys ∪ keys') ref x = hits keys ref x + hits keys' ref x := by
  unfold hits
  rw [filter_union, card_union_of_disjoint]
  exact disjoint_filter_filter hdisj

theorem hits_mono (hsub : keys ⊆ keys') : hits keys ref x ≤ hits keys' ref x :=
  card_le_card (filter_subset_filter _ hsub)

/-- There are no more hits than places, when keys with a reference have places of
their own. -/
theorem hits_le_card {P : Type*} {places : Finset P} (place : K → P)
    (hplace : ∀ k ∈ keys, ref k = some x → place k ∈ places)
    (hinj : ∀ j ∈ keys, ∀ k ∈ keys, ref j = some x → ref k = some x → place j = place k → j = k) :
    hits keys ref x ≤ places.card := by
  refine card_le_card_of_injOn place (fun k hk => ?_) fun j hj k hk heq => ?_
  · obtain ⟨hk, hx⟩ := mem_filter.mp hk
    exact hplace k hk hx
  · obtain ⟨hj, hjx⟩ := mem_filter.mp hj
    obtain ⟨hk, hkx⟩ := mem_filter.mp hk
    exact hinj j hj k hk hjx hkx heq

/-- Two rows of keys with the same references. -/
theorem hits_row {R C : Type*} {ref ref' : R × C → Option F} {cols : Finset C} {a b : R}
    (h : ∀ c ∈ cols, ref' (b, c) = ref (a, c)) (x : F) :
    hits ({b} ×ˢ cols) ref' x = hits ({a} ×ˢ cols) ref x := by
  refine card_bij (fun k _ => (a, k.2)) ?_ ?_ ?_
  · rintro ⟨r, c⟩ hk
    simp only [mem_filter, mem_product, mem_singleton] at hk ⊢
    obtain ⟨⟨rfl, hc⟩, hx⟩ := hk
    exact ⟨⟨trivial, hc⟩, h c hc ▸ hx⟩
  · rintro ⟨r, c⟩ hk ⟨r', c'⟩ hk' heq
    simp only [mem_filter, mem_product, mem_singleton] at hk hk'
    exact Prod.ext (hk.1.1.trans hk'.1.1.symm) (Prod.mk.inj heq).2
  rintro ⟨r, c⟩ hk
  simp only [mem_filter, mem_product, mem_singleton] at hk
  obtain ⟨⟨rfl, hc⟩, hx⟩ := hk
  refine ⟨(b, c), ?_, rfl⟩
  simp only [mem_filter, mem_product, mem_singleton]
  exact ⟨⟨trivial, hc⟩, (h c hc).trans hx⟩

end Kurios.Base
