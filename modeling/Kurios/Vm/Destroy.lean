import Kurios.Vm.Space

/-!
`as_destroy`.

The teardown reads the tables of an address space without changing them and drops what
it finds: one reference for each page, and each table. A `Ledger` less what has been
dropped so far (`Ledger.without`) is the invariant of all its loops; `under` and
`pagesUnder` are the tables and pages below a range of places.
-/

namespace Kurios.Pmm

/-- The ledger without the tables in `D` and without `R f` references to each frame. -/
noncomputable def Ledger.without (L : Ledger) (D : Set Nat) (R : Nat → Nat) : Ledger :=
  open scoped Classical in
  { L with tables := L.tables.filter (· ∉ D), refs := fun f => L.refs f - R f }

theorem Ledger.mem_without_tables {L : Ledger} {D : Set Nat} {R : Nat → Nat} {t : Nat} :
    t ∈ (L.without D R).tables ↔ t ∈ L.tables ∧ t ∉ D := by
  simp [Ledger.without]

/-- One reference more is dropped. -/
theorem Ledger.without_put (L : Ledger) (D : Set Nat) (R : Nat → Nat) (f : Nat) :
    (L.without D R).setRefs f ((L.without D R).refs f - 1) =
      L.without D (Function.update R f (R f + 1)) := by
  simp only [Ledger.setRefs, Ledger.without, Ledger.mk.injEq, true_and]
  funext q
  by_cases hq : q = f
  · subst hq
    simp only [Function.update_self]
    omega
  · simp [Function.update_of_ne hq]

/-- One table more is dropped. -/
theorem Ledger.without_free (L : Ledger) (D : Set Nat) (R : Nat → Nat) (t : Nat) :
    (L.without D R).dropTable t = L.without (D ∪ {t}) R := by
  simp only [Ledger.dropTable, Ledger.without, Ledger.mk.injEq, true_and, and_true]
  ext u
  simp only [Finset.mem_erase, Finset.mem_filter, Set.mem_union, Set.mem_singleton_iff]
  tauto

end Kurios.Pmm

namespace Kurios.Vm

open Base Pmm Function Option Finset

/-- The tables of `a` at or below the places `[lo, hi)` of level `l`. -/
def under (V : View) (a l lo hi : Nat) : Set Nat :=
  { u | ∃ k p, k ≤ l ∧ lo ≤ p / 512 ^ (l - k) ∧ p / 512 ^ (l - k) < hi ∧
    V.tables.node a k p = some u }

/-- How often `f` is mapped below the places `[lo, hi)` of level `l`. -/
def pagesUnder (s : VmState) (V : View) (a l lo hi f : Nat) : Nat :=
  hits ({a} ×ˢ Finset.Ico (lo * 512 ^ (l + 1)) (hi * 512 ^ (l + 1))) (frameAt s V) f

section Ranges

variable {s : VmState} {A : Arena} {L : Ledger} {V : View} {a l lo hi n t : Nat}

theorem under_append (hle : lo ≤ hi) :
    under V a l lo (hi + 1) = under V a l lo hi ∪ under V a l hi (hi + 1) := by
  ext u
  constructor
  · rintro ⟨k, p, hk, hlo, hhi, hnode⟩
    by_cases hlast : p / 512 ^ (l - k) < hi
    · exact .inl ⟨k, p, hk, hlo, hlast, hnode⟩
    · exact .inr ⟨k, p, hk, by omega, hhi, hnode⟩
  · rintro (⟨k, p, hk, hlo, hhi, hnode⟩ | ⟨k, p, hk, hlo, hhi, hnode⟩)
    · exact ⟨k, p, hk, hlo, by omega, hnode⟩
    · exact ⟨k, p, hk, by omega, hhi, hnode⟩

theorem under_empty : under V a l lo lo = ∅ := by
  ext u
  simp only [under, Set.mem_ofPred_eq, Set.mem_empty_iff_false, iff_false]
  rintro ⟨k, p, -, hlo, hhi, -⟩
  omega

theorem under_zero (hnode : V.tables.node a 0 n = some t) : under V a 0 n (n + 1) = {t} := by
  ext u
  constructor
  · rintro ⟨k, p, hk, hlo, hhi, hu⟩
    obtain rfl : k = 0 := by omega
    obtain rfl : p = n := by omega
    exact some.inj (hu.symm.trans hnode)
  · rintro rfl
    exact ⟨0, n, le_refl 0, by simp, by simp, hnode⟩

/-- A table and what is below its cells. -/
theorem under_succ (hnode : V.tables.node a (l + 1) n = some t) :
    under V a (l + 1) n (n + 1) = under V a l (n * 512) (n * 512 + 512) ∪ {t} := by
  have hdiv : ∀ k p, k ≤ l → p / 512 ^ (l + 1 - k) = p / 512 ^ (l - k) / 512 := by
    intro k p hk
    rw [Nat.div_div_eq_div_mul, ← pow_succ]
    congr 2
    omega
  ext u
  constructor
  · rintro ⟨k, p, hk, hlo, hhi, hu⟩
    by_cases hkl : k = l + 1
    · subst hkl
      rw [Nat.sub_self, pow_zero, Nat.div_one] at hlo hhi
      obtain rfl : p = n := by omega
      exact .inr (some.inj (hu.symm.trans hnode))
    · rw [hdiv k p (by omega)] at hlo hhi
      exact .inl ⟨k, p, by omega, by omega, by omega, hu⟩
  rintro (⟨k, p, hk, hlo, hhi, hu⟩ | rfl)
  · refine ⟨k, p, by omega, ?_, ?_, hu⟩
    · rw [hdiv k p hk]
      omega
    · rw [hdiv k p hk]
      omega
  · exact ⟨l + 1, n, le_rfl, by simp, by simp, hnode⟩

theorem pagesUnder_append (hle : lo ≤ hi) (f : Nat) :
    pagesUnder s V a l lo (hi + 1) f =
      pagesUnder s V a l lo hi f + pagesUnder s V a l hi (hi + 1) f := by
  have h1 : lo * 512 ^ (l + 1) ≤ hi * 512 ^ (l + 1) := Nat.mul_le_mul_right _ hle
  have h2 : hi * 512 ^ (l + 1) ≤ (hi + 1) * 512 ^ (l + 1) := Nat.mul_le_mul_right _ (Nat.le_succ hi)
  rw [pagesUnder, ← Finset.Ico_union_Ico_eq_Ico h1 h2, product_union, hits_union]
  · rfl
  rw [disjoint_left]
  rintro ⟨b, v⟩ hk hk'
  simp only [mem_product, mem_Ico] at hk hk'
  omega

theorem pagesUnder_succ (f : Nat) :
    pagesUnder s V a (l + 1) n (n + 1) f = pagesUnder s V a l (n * 512) (n * 512 + 512) f := by
  have hlo : n * 512 ^ (l + 2) = n * 512 * 512 ^ (l + 1) := by
    rw [pow_succ 512 (l + 1), mul_assoc, mul_comm 512]
  have hhi : (n + 1) * 512 ^ (l + 2) = (n * 512 + 512) * 512 ^ (l + 1) := by
    rw [pow_succ 512 (l + 1), mul_comm _ 512, ← mul_assoc, add_mul, one_mul]
  rw [pagesUnder, hlo, hhi]
  rfl

section

variable (h : Paging s A L V) (hl : l ≤ 3) (hnone : V.tables.node a l n = none)
include h hl hnone

/-- Below an empty cell there are no tables and no pages. -/
theorem under_none : under V a l n (n + 1) = ∅ := by
  ext u
  simp only [under, Set.mem_ofPred_eq, Set.mem_empty_iff_false, iff_false]
  rintro ⟨k, p, hk, hlo, hhi, hu⟩
  have hp : p / userDims.fan ^ (l - k) = n := by
    show p / 512 ^ (l - k) = n
    omega
  rw [h.shape.none_under hl hnone hk hp] at hu
  cases hu

theorem pagesUnder_none (f : Nat) : pagesUnder s V a l n (n + 1) f = 0 := by
  refine hits_eq_zero ?_
  rintro ⟨b, v⟩ hk
  simp only [mem_product, mem_singleton, mem_Ico] at hk
  obtain ⟨rfl, hlo, hhi⟩ := hk
  have hv : v / 512 / userDims.fan ^ (l - 0) = n := by
    show v / 512 / 512 ^ l = n
    rw [Nat.div_div_eq_div_mul, ← pow_succ']
    exact Nat.div_eq_of_lt_le hlo hhi
  have hleaf : leaf s V (b, v) = none := by
    rw [leaf, h.shape.none_under hl hnone zero_le hv]
    rfl
  rw [frameAt, hleaf]
  simp

end

end Ranges

/-! ### The teardown -/

/-- From `s0` on, the tables in `D` and `R f` references to each frame were dropped. -/
structure Dropped (s0 : VmState) (A : Arena) (L : Ledger) (D : Set Nat) (R : Nat → Nat)
    (s : VmState) : Prop where
  same : s = { s0 with pmm := s.pmm }
  accounts : ∃ A', SameMachine s0.pmm A s.pmm A' ∧ Accounts s.pmm A' (L.without D R)

namespace Dropped

variable {s0 s : VmState} {A : Arena} {L : Ledger} {D : Set Nat} {R : Nat → Nat} {f t : Nat}

theorem mem (h : Dropped s0 A L D R s) : s.mem = s0.mem := by rw [h.same]

section

variable (h : Dropped s0 A L D R s) (htotal : 2 ^ maxOrder ∣ s0.pmm.totalPages)
include h htotal

theorem put (hf : R f < L.refs f) : Dropped s0 A L D (update R f (R f + 1)) (putFrame s f) := by
  obtain ⟨A', hsame, hacc⟩ := h.accounts
  have hcnt := Nat.sub_pos_of_lt hf
  obtain ⟨A'', hsame', hacc'⟩ := hacc.put (hsame.totalPages ▸ htotal) hcnt
  refine ⟨?_, A'', hsame.trans hsame', L.without_put D R f ▸ hacc'⟩
  conv_lhs => rw [h.same]
  rfl

theorem free (ht : t ∈ L.tables) (hD : t ∉ D) : Dropped s0 A L (D ∪ {t}) R (freeFrame s t) := by
  obtain ⟨A', hsame, hacc⟩ := h.accounts
  obtain ⟨A'', hsame', hacc'⟩ := hacc.freeTable (hsame.totalPages ▸ htotal)
    (Ledger.mem_without_tables.mpr ⟨ht, hD⟩)
  refine ⟨?_, A'', hsame.trans hsame', L.without_free D R t ▸ hacc'⟩
  conv_lhs => rw [h.same]
  rfl

end

end Dropped

section Teardown

variable {s0 : VmState} {A : Arena} {L : Ledger} {V : View} {a : Nat}

/-- What `free_page_tables_recursive` does on level `l`: it drops the table and
everything below it. -/
def FreesLevel (s0 : VmState) (A : Arena) (L : Ledger) (V : View) (a l : Nat) : Prop :=
  ∀ n t D R s, V.tables.node a l n = some t → (∀ u ∈ under V a l n (n + 1), u ∉ D) →
    (∀ f, R f + pagesUnder s0 V a l n (n + 1) f ≤ L.refs f) → Dropped s0 A L D R s →
    Dropped s0 A L (D ∪ under V a l n (n + 1)) (fun f => R f + pagesUnder s0 V a l n (n + 1) f)
      (freePageTablesRecursive l t s)

/-- The page of one entry of a table of level 0. -/
theorem pagesUnder_entry (s0 : VmState) {n t i} (hnode : V.tables.node a 0 n = some t)
    (hi : i < 512) (f : Nat) :
    hits ({a} ×ˢ Finset.Ico (n * 512) (n * 512 + (i + 1))) (frameAt s0 V) f =
      hits ({a} ×ˢ Finset.Ico (n * 512) (n * 512 + i)) (frameAt s0 V) f +
        (if child s0.mem t i = some f then 1 else 0) := by
  have hframe : frameAt s0 V (a, n * 512 + i) = child s0.mem t i := by
    have hdiv : (n * 512 + i) / 512 = n := by omega
    have hmod : (n * 512 + i) % 512 = i := by omega
    simp [frameAt, leaf, hdiv, hmod, hnode, child]
  have hsplit : ({a} : Finset Nat) ×ˢ Finset.Ico (n * 512) (n * 512 + (i + 1)) =
      {a} ×ˢ Finset.Ico (n * 512) (n * 512 + i) ∪ {(a, n * 512 + i)} := by
    ext ⟨b, v⟩
    simp only [mem_product, mem_union, mem_singleton, mem_Ico, Prod.mk.injEq]
    omega
  have hdisj : Disjoint (({a} : Finset Nat) ×ˢ Finset.Ico (n * 512) (n * 512 + i))
      {(a, n * 512 + i)} := by
    rw [disjoint_singleton_right, mem_product, mem_Ico]
    omega
  rw [hsplit, hits_union hdisj]
  congr 1
  rw [hits, filter_singleton, hframe]
  split
  all_goals rfl

theorem freesLevel_zero (h : Paging s0 A L V) (htotal : 2 ^ maxOrder ∣ s0.pmm.totalPages) :
    FreesLevel s0 A L V a 0 := by
  intro n t D R s hnode hD hR hs
  have hpages : ∀ f, pagesUnder s0 V a 0 n (n + 1) f =
      hits ({a} ×ˢ Finset.Ico (n * 512) (n * 512 + 512)) (frameAt s0 V) f := by
    intro f
    rw [pagesUnder, zero_add, Nat.pow_one, add_mul, one_mul]
  simp only [hpages] at hR ⊢
  rw [under_zero hnode] at hD ⊢
  have hloop : Dropped s0 A L D
      (fun f => R f + hits ({a} ×ˢ Finset.Ico (n * 512) (n * 512 + 512)) (frameAt s0 V) f)
      (forRange 0 entriesPerTable (fun i s => freeEntry 0 (fun _ s => s) (s.mem t i) s) s) := by
    -- After `i` entries, the references of their pages are dropped.
    refine forRange_inv (fun i s => Dropped s0 A L D
      (fun f => R f + hits ({a} ×ˢ Finset.Ico (n * 512) (n * 512 + i)) (frameAt s0 V) f) s)
      zero_le (by simpa [hits] using hs) fun i s' _ hi hs' => ?_
    have hi512 : i < 512 := hi
    simp only [pagesUnder_entry s0 hnode hi512]
    rw [hs'.mem, freeEntry]
    by_cases hpres : has (s0.mem t i) ptePresent = true
    · have hchild : child s0.mem t i = some (pteFrame (s0.mem t i)) := by
        simp [child, presentAt, hpres]
      have hroom : hits ({a} ×ˢ Finset.Ico (n * 512) (n * 512 + i)) (frameAt s0 V)
          (pteFrame (s0.mem t i)) + 1 ≤
          hits ({a} ×ˢ Finset.Ico (n * 512) (n * 512 + 512)) (frameAt s0 V)
            (pteFrame (s0.mem t i)) := by
        have hent := pagesUnder_entry s0 hnode hi512 (pteFrame (s0.mem t i))
        rw [if_pos hchild] at hent
        rw [← hent]
        refine hits_mono (product_subset_product_right (Finset.Ico_subset_Ico_right ?_))
        omega
      have hput := hs'.put htotal (f := pteFrame (s0.mem t i))
        (by have := hR (pteFrame (s0.mem t i)); omega)
      rw [hpres, Bool.not_true, if_neg Bool.false_ne_true, if_neg (by omega), if_neg (by omega)]
      convert hput using 1
      funext q
      by_cases hq : q = pteFrame (s0.mem t i)
      · subst hq
        simp [hchild, add_assoc]
      · rw [update_of_ne hq, hchild, if_neg fun hc => hq (some.inj hc).symm]
        rfl
    · have hchild : child s0.mem t i = none := by simp [child, presentAt, hpres]
      simpa [hpres, hchild] using hs'
  exact hloop.free htotal (h.node_mem hnode) (hD t rfl)

/-- The loop over the first `N` cells of a table of level `l + 1`. -/
theorem freeLoop (h : Paging s0 A L V) {l n t N} (hl : l < 3)
    (hfrees : FreesLevel s0 A L V a l) (hnode : V.tables.node a (l + 1) n = some t) (hN : N ≤ 512)
    (hwidth : n * 512 + N ≤ userDims.width l) {D R s}
    (hD : ∀ u ∈ under V a l (n * 512) (n * 512 + N), u ∉ D)
    (hR : ∀ f, R f + pagesUnder s0 V a l (n * 512) (n * 512 + N) f ≤ L.refs f)
    (hs : Dropped s0 A L D R s) {body}
    (hbody : ∀ i s, i < N → s.mem = s0.mem → body i s =
      if has (s0.mem t i) ptePresent then freePageTablesRecursive l (pteFrame (s0.mem t i)) s
      else s) :
    Dropped s0 A L (D ∪ under V a l (n * 512) (n * 512 + N))
      (fun f => R f + pagesUnder s0 V a l (n * 512) (n * 512 + N) f) (forRange 0 N body s) := by
  refine forRange_inv (fun i s => Dropped s0 A L (D ∪ under V a l (n * 512) (n * 512 + i))
    (fun f => R f + pagesUnder s0 V a l (n * 512) (n * 512 + i) f) s) zero_le ?_
    fun i s' _ hi hs' => ?_
  · simpa [under_empty, pagesUnder, hits] using hs
  have hle : n * 512 + i + 1 ≤ n * 512 + N := by
    rw [add_assoc]
    exact Nat.add_le_add_left (Nat.succ_le_of_lt hi) (n * 512)
  have hchild : V.tables.node a l (n * 512 + i) = child s0.mem t i := by
    have hdiv : (n * 512 + i) / 512 = n := by omega
    have hmod : (n * 512 + i) % 512 = i := by omega
    have hlink := h.shape.link a l (n * 512 + i) hl (by omega)
    simp only [userDims, hdiv, hmod, hnode] at hlink
    exact hlink
  have hsplit := fun f => pagesUnder_append (s := s0) (V := V) (a := a) (l := l)
    (Nat.le_add_right (n * 512) i) f
  have hsplitD := under_append (V := V) (a := a) (l := l) (Nat.le_add_right (n * 512) i)
  rw [hbody i s' hi hs'.mem, ← add_assoc]
  by_cases hpres : has (s0.mem t i) ptePresent = true
  · have hsome : V.tables.node a l (n * 512 + i) = some (pteFrame (s0.mem t i)) := by
      rw [hchild]
      simp [child, presentAt, hpres]
    have hfresh : ∀ u ∈ under V a l (n * 512 + i) (n * 512 + i + 1),
        u ∉ D ∪ under V a l (n * 512) (n * 512 + i) := by
      rintro u ⟨k, p, hk, hlo, hhi, hu⟩ (hin | ⟨k', p', -, -, hhi', hu'⟩)
      · exact hD u ⟨k, p, hk, (Nat.le_add_right _ i).trans hlo, hhi.trans_le hle, hu⟩ hin
      · obtain ⟨-, rfl, rfl⟩ := h.shape.inj _ _ _ _ _ _ _ hu hu'
        omega
    have hroom : ∀ f, R f + pagesUnder s0 V a l (n * 512) (n * 512 + i) f +
        pagesUnder s0 V a l (n * 512 + i) (n * 512 + i + 1) f ≤ L.refs f := by
      intro f
      rw [add_assoc, ← hsplit f]
      refine (Nat.add_le_add_left (hits_mono ?_) _).trans (hR f)
      refine product_subset_product_right (Finset.Ico_subset_Ico_right ?_)
      exact Nat.mul_le_mul_right _ hle
    have hdone := hfrees _ _ _ _ s' hsome hfresh hroom hs'
    rw [if_pos hpres, hsplitD, ← Set.union_assoc]
    simp only [hsplit, ← add_assoc]
    exact hdone
  have hnone : V.tables.node a l (n * 512 + i) = none := by
    rw [hchild]
    simp [child, presentAt, hpres]
  rw [if_neg hpres, hsplitD, under_none h (le_of_lt hl) hnone, Set.union_empty]
  simpa [hsplit, pagesUnder_none h (le_of_lt hl) hnone] using hs'

/-- The levels of page directories. -/
theorem freesLevel_succ (h : Paging s0 A L V) (htotal : 2 ^ maxOrder ∣ s0.pmm.totalPages) {l}
    (hl : l < 2) (hfrees : FreesLevel s0 A L V a l) : FreesLevel s0 A L V a (l + 1) := by
  intro n t D R s hnode hD hR hs
  have hwidth : n * 512 + 512 ≤ userDims.width l := by
    have hn := (h.shape.inside _ _ _ _ hnode).2
    simp only [userDims] at hn ⊢
    interval_cases l
    all_goals omega
  rw [under_succ hnode] at hD ⊢
  simp only [pagesUnder_succ] at hR ⊢
  have hbody : ∀ i s, i < 512 → s.mem = s0.mem →
      freeEntry (l + 1) (freePageTablesRecursive l) (s.mem t i) s =
        if has (s0.mem t i) ptePresent then freePageTablesRecursive l (pteFrame (s0.mem t i)) s
        else s := by
    intro i s' _ hmem
    simp only [hmem, freeEntry]
    by_cases hpres : has (s0.mem t i) ptePresent = true
    · have hhuge := h.huge a (l + 1) n t i hnode (by omega) hpres
      simp [hpres, hhuge]
    · simp [hpres]
  have hloop := freeLoop h (by omega) hfrees hnode (le_refl 512) hwidth
    (fun u hu => hD u (.inl hu)) hR hs hbody
  rw [freePageTablesRecursive, ← Set.union_assoc]
  refine hloop.free htotal (h.node_mem hnode) ?_
  rintro (hin | ⟨k, p, hk, -, -, hu⟩)
  · exact hD t (.inr rfl) hin
  · have := (h.shape.inj _ _ _ _ _ _ _ hnode hu).2.1
    omega

end Teardown

/-- How often address space `a` maps a frame. -/
def countIn (s : VmState) (V : View) (a f : Nat) : Nat :=
  hits ({a} ×ˢ range userPages) (frameAt s V) f

/-- Address space `a` is gone, with its tables and one reference for each of its pages. -/
structure Destroyed (a : Nat) (s : VmState) (A : Arena) (L : Ledger) (V : View)
    (s' : VmState) (A' : Arena) (L' : Ledger) (V' : View) : Prop where
  mapped : Mapped s' A' L' V'
  machine : SameMachine s.pmm A s'.pmm A'
  others : L'.others = L.others
  live : V'.live = V.live.erase a
  spaces : ∀ b, b ≠ a → s'.spaces b = s.spaces b
  cache : s'.cache = s.cache
  mem : s'.mem = s.mem
  tables : ∀ t, V'.tables.Has t → V.tables.Has t
  leaf : ∀ k, leaf s' V' k = if k.1 = a then none else leaf s V k
  refs : ∀ f, L'.refs f = L.refs f - countIn s V a f

section

variable {s : VmState} {A : Arena} {L : Ledger} {V : View} {a : Nat}

/-- The tables of an address space are its PML4 and those below the 256 cells of it. -/
theorem Paging.under_root (h : Paging s A L V) (ha : a ∈ V.live) (u : Nat) :
    u ∈ under V a 2 (0 * 512) (0 * 512 + 256) ∪ {s.root a} ↔
      ∃ k p, V.tables.node a k p = some u := by
  constructor
  · rintro (⟨k, p, -, -, -, hu⟩ | rfl)
    · exact ⟨k, p, hu⟩
    · exact ⟨3, 0, h.root ha⟩
  rintro ⟨k, p, hu⟩
  obtain ⟨hk, hp⟩ := h.shape.inside _ _ _ _ hu
  by_cases hk3 : k = 3
  · subst hk3
    obtain rfl : p = 0 := Nat.lt_one_iff.mp hp
    exact .inr (some.inj (hu.symm.trans (h.root ha)))
  left
  have hk2 : k ≤ 2 := by simp only [userDims] at hk; omega
  refine ⟨k, p, hk2, by rw [zero_mul]; exact zero_le, ?_, hu⟩
  simp only [userDims] at hp
  interval_cases k
  all_goals omega

/-- The walk frees the tables of the address space and drops its references. -/
theorem Mapped.asDestroy_dropped (h : Mapped s A L V) (ha : a ∈ V.live)
    (hroom : ∀ f, countIn s V a f ≤ L.refs f) :
    Dropped (s.modifySpace a fun as => { as with refCount := decr32 as.refCount }) A L
      (under V a 2 (0 * 512) (0 * 512 + 256) ∪ {s.root a}) (countIn s V a)
      (Vm.asDestroy s a) := by
  set s0 := s.modifySpace a fun as => { as with refCount := decr32 as.refCount } with hs0
  have hroot : ∀ b, s0.root b = s.root b := fun b =>
    congrArg pteFrame (s.modifySpace_congr AddressSpace.cr3 (by intro; rfl) a b)
  have hroots : roots s0 V.live = roots s V.live := by
    funext b
    simp [roots, hroot]
  have hpaging : Paging s0 A L V := ⟨h.accounts, h.narrow, hroots ▸ h.shape, h.owned, h.huge⟩
  have hlevel : FreesLevel s0 A L V a 2 :=
    freesLevel_succ hpaging h.total (by omega)
      (freesLevel_succ hpaging h.total (by omega) (freesLevel_zero hpaging h.total))
  have hpml4 := h.root ha
  -- All pages of `a` are below the 256 cells of its PML4.
  have hcnt : ∀ f, pagesUnder s0 V a 2 (0 * 512) (0 * 512 + 256) f = countIn s V a f := by
    intro f
    rw [pagesUnder, countIn, range_eq_Ico]
    rfl
  have hstart : Dropped s0 A L ∅ (fun _ => 0) s0 :=
    ⟨rfl, A, .refl _ _, (show L.without ∅ (fun _ => 0) = L by simp [Ledger.without]).symm ▸
      h.accounts⟩
  have hloop := freeLoop hpaging (by omega) hlevel hpml4 (by omega : 256 ≤ 512) le_rfl
    (fun u _ => Set.notMem_empty u) (fun f => by rw [hcnt f, zero_add]; exact hroom f) hstart
    fun i s' _ hmem => show (if has (s'.mem (s.root a) i) ptePresent then
      freePageTablesRecursive 2 (pteFrame (s'.mem (s.root a) i)) s' else s') = _ by rw [hmem]
  have hnotRoot : s.root a ∉ ∅ ∪ under V a 2 (0 * 512) (0 * 512 + 256) := by
    rintro (hin | ⟨k, p, hk, -, -, hu⟩)
    · exact hin
    · have := (h.shape.inj _ _ _ _ _ _ _ hpml4 hu).2.1
      omega
  have hdone := hloop.free h.total (h.node_mem hpml4) hnotRoot
  rw [Set.empty_union] at hdone
  simp only [hcnt, zero_add] at hdone
  have hzero : ¬ (s0.spaces a).refCount > 0 := by
    simp [hs0, VmState.modifySpace, h.single a ha, decr32]
  rw [Vm.asDestroy, ← hs0, if_neg hzero, hroot]
  exact hdone

theorem Mapped.asDestroy (h : Mapped s A L V) (ha : a ∈ V.live)
    (hroom : ∀ f, countIn s V a f ≤ L.refs f)
    (hrest : ∀ k f, k.1 ≠ a → frameAt s V k = some f → countIn s V a f < L.refs f) :
    ∃ A' L' V', Destroyed a s A L V (Vm.asDestroy s a) A' L' V' := by
  have hdone := h.asDestroy_dropped ha hroom
  obtain ⟨A', hsame, hacc⟩ := hdone.accounts
  have hmem : (Vm.asDestroy s a).mem = s.mem := hdone.mem
  have hother : ∀ b, b ≠ a → (Vm.asDestroy s a).spaces b = s.spaces b := by
    intro b hb
    rw [hdone.same]
    simp [VmState.modifySpace, hb]
  have hleaf : ∀ k, leaf (Vm.asDestroy s a) ⟨V.live.erase a, V.tables.drop a⟩ k =
      if k.1 = a then none else leaf s V k := by
    rintro ⟨b, v⟩
    by_cases hb : b = a
    · simp [leaf, hb, Radix.drop_self]
    · simp [leaf, Radix.drop_of_ne _ hb, hmem, if_neg hb]
  refine ⟨A', L.without _ (countIn s V a), ⟨V.live.erase a, V.tables.drop a⟩,
    ⟨⟨hacc, fun q hq => h.narrow q (hsame.frames ▸ hq), ?_, fun t => ?_, ?_⟩,
      hsame.totalPages ▸ h.total, fun q hq => h.window q (hsame.frames ▸ hq), ?_, ?_⟩, hsame, rfl,
    rfl, hother, by rw [hdone.same]; rfl, hmem,
    fun t => Exists.imp fun b => Exists.imp fun l => Exists.imp fun n hnode =>
      (Radix.node_of_drop hnode).2, hleaf, fun f => rfl⟩
  · have hfelled : roots (Vm.asDestroy s a) (V.live.erase a) = update (roots s V.live) a none := by
      funext b
      by_cases hb : b = a
      · subst hb
        simp [roots]
      · simp [roots, VmState.root, hother b hb, hb]
    rw [hfelled, hmem]
    exact h.shape.fell a
  · rw [Ledger.mem_without_tables, h.under_root ha, ← h.owned]
    constructor
    · rintro ⟨b, l, n, hnode⟩
      obtain ⟨hb, hold⟩ := Radix.node_of_drop hnode
      refine ⟨⟨b, l, n, hold⟩, ?_⟩
      rintro ⟨k, p, hu⟩
      exact hb (h.shape.inj _ _ _ _ _ _ _ hu hold).1
    · rintro ⟨⟨b, l, n, hnode⟩, hnot⟩
      have hb : b ≠ a := fun he => hnot ⟨l, n, he ▸ hnode⟩
      exact ⟨b, l, n, (Radix.drop_of_ne _ hb l n).trans hnode⟩
  · intro b l n t i hnode hl
    rw [hmem]
    exact h.huge b l n t i (Radix.node_of_drop hnode).2 hl
  · intro k f hk
    rw [frameAt, hleaf] at hk
    by_cases hka : k.1 = a
    · rw [if_pos hka] at hk
      cases hk
    · rw [if_neg hka] at hk
      exact Nat.sub_pos_of_lt (hrest k f hka hk)
  · intro b hb
    rw [hother b (ne_of_mem_erase hb)]
    exact h.single b (mem_of_mem_erase hb)

end

end Kurios.Vm
