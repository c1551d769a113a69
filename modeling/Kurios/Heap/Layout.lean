import Kurios.Heap.Defs
import Kurios.Base.DList

/-!
Where the heap puts things: page runs, and the objects of a slab.

* `heapAllocPages_spec`: a call writes no page outside the run it asks for; it either
  fails, or maps the whole run to its frames and moves the bump pointer past it.
* `Geometry.fits`: the objects of a slab fit behind its header, for every object
  size and every alignment. `objs_per_slab` is computed without the padding that
  `slab_create` puts between the header and the first object; it still fits because
  what is left of the slab is a multiple of the alignment.
-/

namespace Kurios.Heap

open Base Pmm Function Finset

/-! ### Page runs -/

section Pages

variable {virt : Nat} {kmap : Nat → Option Nat}

theorem unmapPages_apply {count} (hwrap : virt + count * pageSize ≤ 2 ^ 64) (a : Nat) :
    unmapPages virt count kmap a =
      if ∃ i < count, a = virt + i * pageSize then none else kmap a := by
  refine forRange_inv (fun n (k : Nat → Option Nat) => k a =
    if ∃ i < n, a = virt + i * pageSize then none else kmap a) zero_le (by simp) ?_
  intro i k _ hi hk
  have haddr : u64 (virt + i * pageSize) = virt + i * pageSize := u64_of_lt (by
    simp only [pageSize] at hwrap ⊢
    omega)
  rw [haddr, update_apply]
  by_cases ha : a = virt + i * pageSize
  · rw [if_pos ha, if_pos ⟨i, lt_add_one i, ha⟩]
  rw [if_neg ha, hk]
  refine if_congr ⟨?_, ?_⟩ rfl rfl <;> rintro ⟨j, hj, rfl⟩
  · exact ⟨j, hj.trans (lt_add_one i), rfl⟩
  · exact ⟨j, lt_of_le_of_ne (Nat.lt_succ_iff.mp hj) fun he => ha (he ▸ rfl), rfl⟩

/-- The page loop touches the pages of the run only; when it succeeds, each of them
is mapped to its frame. -/
theorem mapPages_spec (virt : Nat) (pages kmap : Nat → Option Nat) {n i}
    (hwrap : virt + (i + n) * pageSize ≤ 2 ^ 64) :
    (∀ a, (∀ j < i + n, a ≠ virt + j * pageSize) → (mapPages virt pages n i kmap).2 a = kmap a) ∧
      ((mapPages virt pages n i kmap).1 = true →
        (∀ j < i, (mapPages virt pages n i kmap).2 (virt + j * pageSize) =
          kmap (virt + j * pageSize)) ∧ ∀ j, i ≤ j → j < i + n →
          pages j ≠ none ∧ (mapPages virt pages n i kmap).2 (virt + j * pageSize) = pages j) := by
  induction n generalizing i kmap with
  | zero =>
    refine ⟨fun a _ => rfl, fun _ => ⟨fun j _ => rfl, fun j hij hj => ?_⟩⟩
    omega
  | succ n ih =>
    cases hpage : pages i with
    | none =>
      simp only [mapPages, hpage]
      refine ⟨fun a ha => ?_, fun h => absurd h Bool.false_ne_true⟩
      have hi : i * pageSize ≤ (i + (n + 1)) * pageSize := Nat.mul_le_mul_right _ (by omega)
      rw [unmapPages_apply (by omega), if_neg]
      rintro ⟨j, hj, rfl⟩
      exact ha j (by omega) rfl
    | some frame =>
      have haddr : u64 (virt + i * pageSize) = virt + i * pageSize := u64_of_lt (by
        simp only [pageSize] at hwrap ⊢
        omega)
      have hne : ∀ j < i, virt + j * pageSize ≠ virt + i * pageSize := by
        intro j hj
        simp only [pageSize]
        omega
      obtain ⟨hframe, hok⟩ := ih (update kmap (virt + i * pageSize) (some frame))
        (i := i + 1) (by rwa [add_right_comm])
      simp only [mapPages, hpage, haddr]
      refine ⟨fun a ha => ?_, fun h => ⟨fun j hj => ?_, fun j hij hj => ?_⟩⟩
      · rw [hframe a fun j hj => ha j (by omega), update_of_ne (ha i (by omega))]
      · rw [(hok h).1 j (by omega), update_of_ne (hne j hj)]
      rcases eq_or_lt_of_le hij with rfl | hlt
      · rw [(hok h).1 i (lt_add_one i), update_self, hpage]
        exact ⟨Option.some_ne_none _, rfl⟩
      · exact (hok h).2 j hlt (by omega)

end Pages

section Alloc

variable {ι : Type} {s : HeapState ι} {count : Nat}

/-- `heap_alloc_pages`, when the end of the run does not wrap. -/
theorem heapAllocPages_spec (pages : Nat → Option Nat)
    (hwrap : s.current + count * pageSize < 2 ^ 64) :
    ∃ kmap, (∀ a, (∀ j < count, a ≠ s.current + j * pageSize) → kmap a = s.kmap a) ∧
      (heapAllocPages s count pages = (0, { s with kmap := kmap }) ∨
        (heapAllocPages s count pages =
            (s.current, { s with kmap := kmap, current := s.current + count * pageSize }) ∧
          s.current + count * pageSize ≤ kheapEnd ∧
          ∀ i < count, pages i ≠ none ∧ kmap (s.current + i * pageSize) = pages i)) := by
  have hlen : u64 (count * pageSize) = count * pageSize := u64_of_lt (by omega)
  have hstop := u64_of_lt hwrap
  obtain ⟨hframe, hok⟩ := mapPages_spec s.current pages s.kmap
    (by rw [zero_add]; exact hwrap.le)
  unfold heapAllocPages
  simp only [hlen, hstop]
  by_cases hend : s.current + count * pageSize > kheapEnd
  · exact ⟨s.kmap, fun _ _ => rfl, .inl (if_pos hend)⟩
  rw [if_neg hend]
  cases hmap : mapPages s.current pages count 0 s.kmap with
  | mk ok kmap =>
    rw [hmap, zero_add] at hframe
    rw [hmap] at hok
    cases ok with
    | false => exact ⟨kmap, hframe, .inl rfl⟩
    | true =>
      exact ⟨kmap, hframe, .inr ⟨rfl, by omega, fun i hi =>
        (hok rfl).2 i zero_le (by omega)⟩⟩

end Alloc

/-! ### The objects of a slab -/

/-- What `kmem_cache_create` guarantees for a cache with at least one object. -/
structure Geometry.Valid (g : Geometry) : Prop where
  align : ∃ j ≤ 12, g.align = 2 ^ j
  dvd : g.align ∣ g.objSize
  size : 16 ≤ g.objSize
  room : slabHeaderSize + g.objsPerSlab * g.objSize ≤ g.slabSize * pageSize
  nonempty : 1 ≤ g.objsPerSlab
  small : g.slabSize ≤ 16

/-- The distance of the first object from the start of the slab. -/
def Geometry.firstObject (g : Geometry) : Nat := alignUp slabHeaderSize g.align

/-- The object addresses of the slab at `a`. -/
def Geometry.objects (g : Geometry) (a : Nat) : Finset Nat :=
  (Finset.range g.objsPerSlab).image fun k => a + g.firstObject + k * g.objSize

namespace Geometry.Valid

variable {g : Geometry} {a o o' : Nat}

theorem align_dvd_page (h : g.Valid) : g.align ∣ pageSize := by
  obtain ⟨j, hj, halign⟩ := h.align
  rw [halign]
  exact pow_dvd_pow 2 hj

/-- The header, rounded up to the alignment. -/
theorem firstObject_spec (h : g.Valid) : slabHeaderSize ≤ g.firstObject ∧ g.align ∣ g.firstObject ∧
      ∀ n, g.align ∣ n → slabHeaderSize ≤ n → g.firstObject ≤ n := by
  obtain ⟨j, hj, halign⟩ := h.align
  have hle : 2 ^ j ≤ 2 ^ 12 := Nat.pow_le_pow_right (by decide) hj
  have hpos := Nat.two_pow_pos j
  have heq : g.firstObject = (slabHeaderSize + (2 ^ j - 1)) / 2 ^ j * 2 ^ j := by
    rw [Geometry.firstObject, halign, alignUp_two_pow,
      u64_of_lt (by simp only [slabHeaderSize]; omega)]
  have hdiv := Nat.div_add_mod (slabHeaderSize + (2 ^ j - 1)) (2 ^ j)
  rw [heq, halign]
  rw [mul_comm] at hdiv
  refine ⟨by omega, ⟨_, mul_comm _ _⟩, ?_⟩
  rintro n ⟨t, rfl⟩ hn
  rw [mul_comm]
  refine Nat.mul_le_mul_left _ ?_
  rw [Nat.div_le_iff_le_mul_add_pred hpos]
  omega

/-- The objects fit, although the padding was not counted. -/
theorem fits (h : g.Valid) : g.firstObject + g.objsPerSlab * g.objSize ≤ g.slabSize * pageSize := by
  have hroom := h.room
  have hrest : g.align ∣ g.slabSize * pageSize - g.objsPerSlab * g.objSize :=
    Nat.dvd_sub (h.align_dvd_page.mul_left _) (h.dvd.mul_left _)
  have := h.firstObject_spec.2.2 _ hrest (by omega)
  omega

theorem mem_objects :
    o ∈ g.objects a ↔ ∃ k < g.objsPerSlab, o = a + g.firstObject + k * g.objSize := by
  simp [Geometry.objects, eq_comm]

/-- An object lies between the header and the end of its slab. -/
theorem object_range (h : g.Valid) (ho : o ∈ g.objects a) :
    a + slabHeaderSize ≤ o ∧ o + g.objSize ≤ a + g.slabSize * pageSize := by
  obtain ⟨k, hk, rfl⟩ := mem_objects.mp ho
  have hfirst := h.firstObject_spec.1
  have hfits := h.fits
  have hmul : (k + 1) * g.objSize ≤ g.objsPerSlab * g.objSize := Nat.mul_le_mul_right _ hk
  rw [Nat.succ_mul] at hmul
  omega

/-- `slab_create` puts the first object where the geometry says. -/
theorem alignUp_header (h : g.Valid) (ha : pageSize ∣ a) (hwrap : a + 2 * pageSize < 2 ^ 64) :
    alignUp (u64 (a + slabHeaderSize)) g.align = a + g.firstObject := by
  obtain ⟨j, hj, halign⟩ := h.align
  have hle : 2 ^ j ≤ 2 ^ 12 := Nat.pow_le_pow_right (by decide) hj
  have hdvd : 2 ^ j ∣ a := (pow_dvd_pow 2 hj).trans ha
  simp only [slabHeaderSize, pageSize] at hwrap ⊢
  rw [Geometry.firstObject, halign, alignUp_two_pow, alignUp_two_pow, u64_of_lt (n := a + 48)
    (by omega), u64_of_lt (by omega), u64_of_lt (by simp only [slabHeaderSize]; omega),
    slabHeaderSize, add_assoc, Nat.add_div_of_dvd_right hdvd, add_mul,
    Nat.div_mul_cancel hdvd]

theorem object_aligned (h : g.Valid) (ha : pageSize ∣ a) (ho : o ∈ g.objects a) : g.align ∣ o := by
  obtain ⟨k, -, rfl⟩ := mem_objects.mp ho
  exact dvd_add (dvd_add (h.align_dvd_page.trans ha) h.firstObject_spec.2.1)
    (h.dvd.mul_left k)

/-- Two objects of a slab do not overlap. -/
theorem object_apart (ho : o ∈ g.objects a) (ho' : o' ∈ g.objects a) (hne : o ≠ o') :
    o + g.objSize ≤ o' ∨ o' + g.objSize ≤ o := by
  obtain ⟨k, -, rfl⟩ := mem_objects.mp ho
  obtain ⟨l, -, rfl⟩ := mem_objects.mp ho'
  rcases Nat.lt_trichotomy k l with hlt | rfl | hlt
  · have := Nat.mul_le_mul_right g.objSize hlt
    rw [Nat.succ_mul] at this
    omega
  · exact absurd rfl hne
  have := Nat.mul_le_mul_right g.objSize hlt
  rw [Nat.succ_mul] at this
  omega

theorem card_objects (h : g.Valid) (a : Nat) : (g.objects a).card = g.objsPerSlab := by
  rw [Geometry.objects, card_image_of_injective, card_range]
  intro k l hkl
  have hsize := h.size
  have heq : k * g.objSize = l * g.objSize := by
    simpa using hkl
  exact Nat.eq_of_mul_eq_mul_right (by omega) heq

end Geometry.Valid

/-! ### `kmem_cache_create` -/

/-- The slab size stays a power of two up to 16 pages. -/
theorem growSlab_dvd (objSize : Nat) {n slabSize} (h : slabSize ∣ 16) :
    growSlab objSize n slabSize ∣ 16 := by
  induction n generalizing slabSize with
  | zero => exact h
  | succ n ih =>
    unfold growSlab
    split
    · next hgrow =>
      refine ih ?_
      obtain ⟨-, hlt⟩ := hgrow
      interval_cases slabSize <;> revert h <;> decide
    · exact h

/-- As many objects as the division says fit behind the header. -/
theorem calcObjsPerSlab_room {objSize slabPages} (hpages : 1 ≤ slabPages)
    (hsmall : slabPages ≤ 16) :
    slabHeaderSize + calcObjsPerSlab objSize slabPages * objSize ≤ slabPages * pageSize := by
  have husable : u64 (slabPages * pageSize - slabHeaderSize) =
      slabPages * pageSize - slabHeaderSize := u64_of_lt (by simp only [pageSize]; omega)
  have hle : calcObjsPerSlab objSize slabPages ≤
      (slabPages * pageSize - slabHeaderSize) / objSize := by
    rw [calcObjsPerSlab, husable]
    exact Nat.mod_le _ _
  have hmul := (Nat.mul_le_mul_right objSize hle).trans (Nat.div_mul_le_self _ _)
  have hheader : slabHeaderSize ≤ slabPages * pageSize := by
    simp only [slabHeaderSize, pageSize]
    omega
  omega

/-- A cache that `kmem_cache_create` makes for any size and any power-of-two
alignment up to a page, or the default alignment, is valid as soon as a slab holds
an object. A size that wraps when it is rounded up becomes 0 and is excluded by
that. -/
theorem kmemCacheCreate_valid {size align zero} (hsize : size < 2 ^ 64)
    (halign : align = 0 ∨ ∃ j ≤ 12, align = 2 ^ j)
    (hobjs : 1 ≤ (kmemCacheCreate size align zero).objsPerSlab) :
    (kmemCacheCreate size align zero).Valid := by
  set size1 := if size < 16 then 16 else size with hsize1
  have hge : 16 ≤ size1 ∧ size1 < 2 ^ 64 := by
    rw [hsize1]
    split <;> omega
  set align1 := if align = 0 then (if 8 < size1 then 16 else 8) else align with halign1
  obtain ⟨j, hj, hpow⟩ : ∃ j ≤ 12, align1 = 2 ^ j := by
    rcases halign with rfl | ⟨j, hj, rfl⟩
    · exact ⟨4, by decide, by rw [halign1, if_pos rfl, if_pos (by omega)]; rfl⟩
    · exact ⟨j, hj, by rw [halign1, if_neg (Nat.two_pow_pos j).ne']⟩
  set pages := growSlab (alignUp size1 align1) 4
    (if alignUp size1 align1 ≤ 256 then 1 else if alignUp size1 align1 ≤ 1024 then 2 else 4)
  have heq : (kmemCacheCreate size align zero).toGeometry = ⟨alignUp size1 align1, align1, pages,
      calcObjsPerSlab (alignUp size1 align1) pages, zero⟩ := rfl
  have hdvd : pages ∣ 16 := growSlab_dvd _ (by split_ifs <;> decide)
  have hle : pages ≤ 16 := Nat.le_of_dvd (by decide) hdvd
  have hpos : 1 ≤ pages := Nat.pos_of_dvd_of_pos hdvd (by decide)
  have hround : alignUp size1 align1 = u64 (size1 + (2 ^ j - 1)) / 2 ^ j * 2 ^ j := by
    rw [hpow, alignUp_two_pow]
  rw [heq] at hobjs ⊢
  refine ⟨⟨j, hj, hpow⟩, ?_, ?_, calcObjsPerSlab_room hpos hle, hobjs, hle⟩
  · rw [hround, hpow]
    exact ⟨_, mul_comm _ _⟩
  -- The rounded size is not 0, so rounding did not wrap.
  have hne : alignUp size1 align1 ≠ 0 := by
    intro hz
    simp [calcObjsPerSlab, hz] at hobjs
  by_cases hwrap : size1 + (2 ^ j - 1) < 2 ^ 64
  · rw [u64_of_lt hwrap] at hround
    have hdiv := Nat.div_add_mod (size1 + (2 ^ j - 1)) (2 ^ j)
    rw [mul_comm] at hdiv
    change 16 ≤ alignUp size1 align1
    omega
  have hsmall : u64 (size1 + (2 ^ j - 1)) < 2 ^ j := by
    rw [u64]
    omega
  rw [Nat.div_eq_of_lt hsmall, zero_mul] at hround
  exact absurd hround hne

end Kurios.Heap
