import Kurios.Heap.Layout

/-!
The memory of the heap: who owns each byte, and what a slab looks like inside.

`View` is the bookkeeping the code does not do: for every byte of the heap the slab
or page run it belongs to, for every cache its slabs and its live objects. `Core`
relates a heap state to its view. Since a byte has one owner, two slabs never
overlap, and the free lists that are threaded through the objects of one slab
survive whatever happens in another one.

The lemmas follow the functions of `slab.c`: `Core.take` (`slab_alloc_obj`),
`Core.release` (`slab_free_obj`), `Core.store` (a write into a live object),
`Core.create` (`slab_create`), `Core.destroy` (`slab_destroy`) and `Core.pages`
(`heap_alloc_pages`). None of them depends on the slab lists of a cache.
-/

namespace Kurios.Heap

open Base Pmm Function Option List Finset

variable {hi lo n x : Nat} {kmap : Nat → Option Nat} {ι : Type}

/-! ### The view of a heap -/

/-- `owner x` is the extent the byte `x` belongs to: a slab of a cache, or a page
run that was handed out whole, with the address of its first byte. -/
structure View (ι : Type) where
  owner : Nat → Option (Option ι × Nat)
  slabs : ι → Finset Nat
  live : ι → Finset Nat
  runs : Finset (Nat × Nat)

/-- The `n` bytes from `a` on are one extent. -/
def Owns (owner : Nat → Option (Option ι × Nat)) (k : Option ι) (a n : Nat) : Prop :=
  ∀ x, a ≤ x → x < a + n → owner x = some (k, a)

theorem Owns.eq {owner : Nat → Option (Option ι × Nat)} {k k' a a' n'}
    (h : Owns owner k a n) (h' : Owns owner k' a' n') (hx : a ≤ x ∧ x < a + n)
    (hx' : a' ≤ x ∧ x < a' + n') : k = k' ∧ a = a' := by
  have heq := (h x hx.1 hx.2).symm.trans (h' x hx'.1 hx'.2)
  simpa using heq

/-- The slab at `a` of a cache with geometry `geo`: its header counts the live
objects, and its free list runs through the others. -/
structure SlabOk (mem : Nat → Option Nat) (header : Slab) (geo : Geometry) (live : Finset Nat)
    (a : Nat) : Prop where
  aligned : pageSize ∣ a
  total : header.total = geo.objsPerSlab
  inUse : header.inUse = (geo.objects a ∩ live).card
  free : ∃ xs, Chain mem header.freeList xs ∧ xs.Nodup ∧ ∀ o, o ∈ xs ↔ o ∈ geo.objects a ∧ o ∉ live

/-- The heap state `s` has the geometries `g` and is described by `v`. -/
structure Core (g : ι → Geometry) (s : HeapState ι) (v : View ι) : Prop where
  geometry : ∀ i, (s.caches i).toGeometry = g i
  valid : ∀ i, (g i).Valid
  aligned : pageSize ∣ s.current
  range : kheapStart ≤ s.current ∧ s.current ≤ kheapEnd
  below : ∀ x, v.owner x ≠ none → kheapStart ≤ x ∧ x < s.current
  mapped : ∀ x, v.owner x ≠ none → s.kmap (x / pageSize * pageSize) ≠ none
  owns : ∀ i, ∀ a ∈ v.slabs i, Owns v.owner (some i) a ((g i).slabSize * pageSize)
  runs : ∀ r ∈ v.runs, Owns v.owner none r.1 r.2
  slab : ∀ i, ∀ a ∈ v.slabs i, SlabOk s.mem (s.slabs a) (g i) (v.live i) a
  live : ∀ i, ∀ o ∈ v.live i, ∃ a ∈ v.slabs i, o ∈ (g i).objects a

variable {s t : HeapState ι} {g : ι → Geometry} {v : View ι} {i j : ι} {a b o o' : Nat}

section

variable [DecidableEq ι] (v : View ι) (i : ι) (o : Nat)

/-- `o` becomes a live object of cache `i`. -/
def View.take : View ι :=
  { v with live := Function.update v.live i (insert o (v.live i)) }

/-- `o` is no longer a live object of cache `i`. -/
def View.release : View ι :=
  { v with live := Function.update v.live i ((v.live i).erase o) }

end

/-- The `n` bytes from `a` on become an extent. -/
def View.claim (v : View ι) (k : Option ι) (a n : Nat) : View ι :=
  { v with owner := fun x => if a ≤ x ∧ x < a + n then some (k, a) else v.owner x }

/-- A page run is handed out. -/
def View.addRun (v : View ι) (a n : Nat) : View ι :=
  { v.claim none a n with runs := insert (a, n) v.runs }

section

variable [DecidableEq ι] (v : View ι) (i : ι) (a n : Nat)

/-- A slab joins cache `i`. -/
def View.addSlab : View ι :=
  { v.claim (some i) a n with slabs := Function.update v.slabs i (insert a (v.slabs i)) }

/-- A slab leaves cache `i` and its bytes are nobody's. -/
def View.dropSlab : View ι :=
  { v with owner := fun x => if a ≤ x ∧ x < a + n then none else v.owner x
           slabs := Function.update v.slabs i ((v.slabs i).erase a) }

end

/-! ### One slab -/

namespace SlabOk

variable {mem mem' : Nat → Option Nat} {header : Slab} {geo : Geometry} {live live' : Finset Nat}

/-- A slab depends on the words in its free objects and on which of its objects are
live. -/
theorem frame (h : SlabOk mem header geo live a)
    (hmem : ∀ o ∈ geo.objects a, o ∉ live → mem' o = mem o)
    (hlive : ∀ o ∈ geo.objects a, o ∈ live' ↔ o ∈ live) : SlabOk mem' header geo live' a := by
  obtain ⟨xs, hchain, hnd, hxs⟩ := h.free
  refine ⟨h.aligned, h.total, ?_, xs, ?_, hnd, ?_⟩
  · rw [h.inUse]
    congr 1
    ext o
    simp only [mem_inter]
    exact and_congr_right fun ho => (hlive o ho).symm
  · exact hchain.frame fun o ho => hmem o ((hxs o).mp ho).1 ((hxs o).mp ho).2
  · intro o
    rw [hxs o]
    exact and_congr_right fun ho => not_congr (hlive o ho).symm

/-- Live and free objects together are all objects. -/
theorem card_add_length (hgeo : geo.Valid) {xs : List Nat} (hnd : xs.Nodup)
    (hxs : ∀ o, o ∈ xs ↔ o ∈ geo.objects a ∧ o ∉ live) :
    (geo.objects a ∩ live).card + xs.length = geo.objsPerSlab := by
  have hfree : xs.toFinset = geo.objects a \ live := by
    ext o
    rw [List.mem_toFinset, hxs o, mem_sdiff]
  rw [← toFinset_card_of_nodup hnd, hfree, card_inter_add_card_sdiff, hgeo.card_objects]

theorem inUse_le (h : SlabOk mem header geo live a) (hgeo : geo.Valid) :
    header.inUse ≤ header.total := by
  rw [h.inUse, h.total, ← hgeo.card_objects a]
  exact card_le_card inter_subset_left

/-- A slab that is not full has a free object. -/
theorem free_cons (h : SlabOk mem header geo live a) (hgeo : geo.Valid)
    (hroom : header.inUse < header.total) :
    ∃ o xs, Chain mem header.freeList (o :: xs) ∧ (o :: xs).Nodup ∧
      ∀ x, x ∈ o :: xs ↔ x ∈ geo.objects a ∧ x ∉ live := by
  obtain ⟨xs, hchain, hnd, hxs⟩ := h.free
  cases xs with
  | nil =>
    have hcard := card_add_length hgeo hnd hxs
    rw [← h.inUse, ← h.total, length_nil] at hcard
    omega
  | cons o xs => exact ⟨o, xs, hchain, hnd, hxs⟩

end SlabOk

/-- A slab has far fewer objects than its 32 bit counter can count. -/
theorem Geometry.Valid.objs_lt {geo : Geometry} (h : geo.Valid) : geo.objsPerSlab < 2 ^ 32 - 1 := by
  have hsize := h.size
  have hroom := h.room
  have hsmall := h.small
  have hmul : geo.objsPerSlab * 16 ≤ geo.objsPerSlab * geo.objSize := Nat.mul_le_mul_left _ hsize
  simp only [pageSize] at hroom
  omega

/-- The loop of `slab_create` leaves a free list of all objects, the last one
first. -/
theorem chainObjects_spec (s : HeapState ι) {size} (hpos : 0 < size)
    (hnone : (s.slabs a).freeList = none)
    (hwrap : (s.slabs a).objects + (s.slabs a).total * size ≤ 2 ^ 64) :
    ∃ mem xs, chainObjects s a size =
        { s with mem := mem }.modifySlab a (fun h => { h with freeList := xs.head? }) ∧
      Chain mem xs.head? xs ∧ xs.Nodup ∧
      (∀ o, o ∈ xs ↔ ∃ k < (s.slabs a).total, o = (s.slabs a).objects + k * size) ∧
      ∀ o, o ∉ xs → mem o = s.mem o := by
  refine forRange_inv (fun n (t : HeapState ι) => ∃ mem xs,
    t = { s with mem := mem }.modifySlab a (fun h => { h with freeList := xs.head? }) ∧
      Chain mem xs.head? xs ∧ xs.Nodup ∧
      (∀ o, o ∈ xs ↔ ∃ k < n, o = (s.slabs a).objects + k * size) ∧
      ∀ o, o ∉ xs → mem o = s.mem o) zero_le ?_ ?_
  · refine ⟨s.mem, [], ?_, rfl, nodup_nil, by simp, fun _ _ => rfl⟩
    have hself : { s.slabs a with freeList := [].head? } = s.slabs a := by
      rw [List.head?_nil, ← hnone]
    simp only [HeapState.modifySlab, hself, update_eq_self]
  rintro n t - hn ⟨mem, xs, rfl, hchain, hnd, hxs, hmem⟩
  have hlast : (n + 1) * size ≤ (s.slabs a).total * size := Nat.mul_le_mul_right _ hn
  rw [Nat.succ_mul] at hlast
  have hobj : u64 ((s.slabs a).objects + n * size) = (s.slabs a).objects + n * size :=
    u64_of_lt (by omega)
  have hnew : (s.slabs a).objects + n * size ∉ xs := by
    intro ho
    obtain ⟨k, hk, heq⟩ := (hxs _).mp ho
    exact hk.ne (Nat.eq_of_mul_eq_mul_right hpos (Nat.add_left_cancel heq)).symm
  rw [hobj]
  refine ⟨Function.update mem ((s.slabs a).objects + n * size) xs.head?,
    ((s.slabs a).objects + n * size) :: xs, ?_, ?_, nodup_cons.mpr ⟨hnew, hnd⟩, ?_, ?_⟩
  · simp [HeapState.setWord, HeapState.modifySlab]
  · refine hchain.push (update_self _ _ _) fun y hy => update_of_ne ?_ _ _
    exact fun he => hnew (he ▸ hy)
  · intro o
    rw [List.mem_cons, hxs o]
    constructor
    · rintro (rfl | ⟨k, hk, rfl⟩)
      · exact ⟨n, lt_add_one n, rfl⟩
      · exact ⟨k, hk.trans (lt_add_one n), rfl⟩
    rintro ⟨k, hk, rfl⟩
    rcases Nat.lt_succ_iff_lt_or_eq.mp hk with hlt | rfl
    · exact .inr ⟨k, hlt, rfl⟩
    · exact .inl rfl
  · intro o ho
    obtain ⟨hne, hout⟩ := ne_and_not_mem_of_not_mem_cons ho
    rw [update_of_ne hne, hmem o hout]

/-! ### Slabs do not interfere -/

namespace Core

section

variable (h : Core g s v)
include h

theorem slab_pos (i : ι) : 0 < (g i).slabSize * pageSize := by
  have hroom := (h.valid i).room
  simp only [slabHeaderSize] at hroom
  omega

/-- The bytes of an object belong to its slab. -/
theorem owns_object (ha : a ∈ v.slabs i) (ho : o ∈ (g i).objects a)
    (hx : o ≤ x ∧ x < o + (g i).objSize) : v.owner x = some (some i, a) := by
  have hrng := (h.valid i).object_range ho
  exact h.owns i a ha x (by omega) (by omega)

theorem slab_inj (ha : a ∈ v.slabs i) (hb : a ∈ v.slabs j) : i = j := by
  have hi := h.slab_pos i
  have hj := h.slab_pos j
  have heq := (h.owns i a ha).eq (h.owns j a hb) ⟨le_rfl, by omega⟩ ⟨le_rfl, by omega⟩
  exact some.inj heq.1

/-- Objects of different slabs do not overlap. -/
theorem object_apart (ha : a ∈ v.slabs i) (hb : b ∈ v.slabs j) (hne : a ≠ b)
    (ho : o ∈ (g i).objects a) (ho' : o' ∈ (g j).objects b) :
    o + (g i).objSize ≤ o' ∨ o' + (g j).objSize ≤ o := by
  by_contra hover
  have hsize := (h.valid i).size
  have hsize' := (h.valid j).size
  -- The later of the two first bytes would have two owners.
  have hi := h.owns_object ha ho (x := max o o') (by omega)
  have hj := h.owns_object hb ho' (x := max o o') (by omega)
  rw [hi] at hj
  simp only [some.injEq, Prod.mk.injEq] at hj
  exact hne hj.2

/-- Two live objects do not overlap. -/
theorem live_apart (ho : o ∈ v.live i) (ho' : o' ∈ v.live j) (hne : (i, o) ≠ (j, o')) :
    o + (g i).objSize ≤ o' ∨ o' + (g j).objSize ≤ o := by
  obtain ⟨a, ha, hoa⟩ := h.live i o ho
  obtain ⟨b, hb, hob⟩ := h.live j o' ho'
  by_cases hab : a = b
  · subst hab
    obtain rfl := h.slab_inj ha hb
    exact Geometry.Valid.object_apart hoa hob fun he => hne (by rw [he])
  · exact h.object_apart ha hb hab hoa hob

/-- A slab ends below the bump pointer. -/
theorem slab_range (ha : a ∈ v.slabs i) :
    kheapStart ≤ a ∧ a + (g i).slabSize * pageSize ≤ s.current := by
  have hpos := h.slab_pos i
  have hfirst := h.owns i a ha a le_rfl (by omega)
  have hlast := h.owns i a ha (a + (g i).slabSize * pageSize - 1) (by omega) (by omega)
  have h1 := h.below a (by rw [hfirst]; exact some_ne_none _)
  have h2 := h.below _ (by rw [hlast]; exact some_ne_none _)
  omega

end

/-! ### Page runs -/

section

variable (h : Core g s v)
include h

/-- Pages above the bump pointer do not matter. -/
theorem remap (hkmap : ∀ x < s.current, kmap x = s.kmap x) : Core g { s with kmap := kmap } v := by
  refine { h with mapped := fun x hx => ?_ }
  have hlt := (h.below x hx).2
  have hle := Nat.div_mul_le_self x pageSize
  change kmap _ ≠ none
  rw [hkmap _ (by omega)]
  exact h.mapped x hx

/-- The page run that `heap_alloc_pages` mapped is a new extent. -/
theorem claim (hkmap : ∀ x < s.current, kmap x = s.kmap x)
    (hend : s.current + n * pageSize ≤ kheapEnd)
    (hmap : ∀ k < n, kmap (s.current + k * pageSize) ≠ none) (k : Option ι) :
    Core g { s with kmap := kmap, current := s.current + n * pageSize }
      (v.claim k s.current (n * pageSize)) := by
  have hbase := h.remap hkmap
  have howns : ∀ {k' : Option ι} {a m : Nat}, Owns v.owner k' a m →
      Owns (v.claim k s.current (n * pageSize)).owner k' a m := by
    intro k' a m ha x hlo hhi
    have hx := ha x hlo hhi
    have hlt := (h.below x (by rw [hx]; exact some_ne_none _)).2
    exact (if_neg (by omega)).trans hx
  have hnew : ∀ x, (v.claim k s.current (n * pageSize)).owner x ≠ none →
      (s.current ≤ x ∧ x < s.current + n * pageSize) ∨ v.owner x ≠ none := by
    intro x hx
    by_cases hin : s.current ≤ x ∧ x < s.current + n * pageSize
    · exact .inl hin
    · simp only [View.claim, if_neg hin] at hx
      exact .inr hx
  refine { hbase with
    aligned := dvd_add h.aligned (dvd_mul_left _ _)
    range := ⟨h.range.1.trans (Nat.le_add_right _ _), hend⟩
    below := ?_, mapped := ?_
    owns := fun i a ha => howns (h.owns i a ha)
    runs := fun r hr => howns (h.runs r hr) } <;> intro x hx
  · rcases hnew x hx with hin | hold
    · exact ⟨h.range.1.trans hin.1, hin.2⟩
    · have := h.below x hold
      exact ⟨this.1, this.2.trans_le (Nat.le_add_right _ _)⟩
  rcases hnew x hx with hin | hold
  · -- The page of `x` is the page of the run at distance `x - current`.
    obtain ⟨c, hc⟩ := h.aligned
    have hpage : x / pageSize * pageSize = s.current + (x - s.current) / pageSize * pageSize := by
      simp only [pageSize] at hc ⊢
      omega
    rw [hpage]
    refine hmap _ ?_
    rw [Nat.div_lt_iff_lt_mul (by decide)]
    omega
  · exact hbase.mapped x hold

/-- `heap_alloc_pages` fails or hands out a new run. -/
theorem pages (hwrap : s.current + n * pageSize < 2 ^ 64) (pages : Nat → Option Nat) :
    ((heapAllocPages s n pages).1 = 0 ∧ Core g (heapAllocPages s n pages).2 v ∧
        (heapAllocPages s n pages).2.slabs = s.slabs ∧
        (heapAllocPages s n pages).2.caches = s.caches) ∨
      ((heapAllocPages s n pages).1 = s.current ∧ (heapAllocPages s n pages).2.slabs = s.slabs ∧
        (heapAllocPages s n pages).2.caches = s.caches ∧
        ∀ k, Core g (heapAllocPages s n pages).2 (v.claim k s.current (n * pageSize))) := by
  obtain ⟨kmap, hframe, hfail | ⟨hok, hend, hmap⟩⟩ := heapAllocPages_spec pages hwrap
  all_goals
    have hkmap : ∀ a < s.current, kmap a = s.kmap a := fun a ha => hframe a fun j _ => by omega
  · rw [hfail]
    exact .inl ⟨rfl, h.remap hkmap, rfl, rfl⟩
  · rw [hok]
    exact .inr ⟨rfl, rfl, rfl, h.claim hkmap hend fun i hi => (hmap i hi).2 ▸ (hmap i hi).1⟩

/-! ### Objects come and go -/

/-- Bytes stored outside the links of the free objects. -/
theorem storeOutside (value : Nat → Option Nat)
    (hout : ∀ j b x, b ∈ v.slabs j → x ∈ (g j).objects b → x ∉ v.live j → x + 8 ≤ lo ∨ hi ≤ x) :
    Core g (s.store lo hi value) v := by
  refine { h with slab := ?_ }
  intro j b hb
  refine (h.slab j b hb).frame ?_ fun _ _ => Iff.rfl
  intro x hx hfree
  exact if_pos (hout j b x hb hx hfree)

/-- Bytes stored inside a live object reach no free list. -/
theorem store (hlive : o ∈ v.live i) (hlo : o ≤ lo) (hhi : hi ≤ o + (g i).objSize)
    (value : Nat → Option Nat) : Core g (s.store lo hi value) v := by
  obtain ⟨a, ha, hobj⟩ := h.live i o hlive
  refine h.storeOutside value fun j b x hb hx hfree => ?_
  have hsize := (h.valid j).size
  -- A free object is another object, and its link lies inside it.
  have hapart : o + (g i).objSize ≤ x ∨ x + (g j).objSize ≤ o := by
    by_cases hab : a = b
    · subst hab
      obtain rfl := h.slab_inj ha hb
      exact Geometry.Valid.object_apart hobj hx fun he => hfree (he ▸ hlive)
    · exact h.object_apart ha hb hab hobj hx
  omega

/-- An object does not overlap a page run. -/
theorem object_run_apart (ha : a ∈ v.slabs i) (hobj : o ∈ (g i).objects a) (hrun : (b, n) ∈ v.runs)
    (hn : 1 ≤ n) : o + (g i).objSize ≤ b ∨ b + n ≤ o := by
  by_contra hover
  have hsize := (h.valid i).size
  have howner := h.owns_object ha hobj (x := max o b) (by omega)
  rw [h.runs _ hrun (max o b) (by omega) (by omega)] at howner
  cases howner

end

variable [DecidableEq ι]

section

variable (h : Core g s v) (slabs : Nat → Slab) {mem : Nat → Option Nat} {live : Finset Nat}
  (hslabs : ∀ b, b ≠ a → slabs b = s.slabs b) (hmem : ∀ o, o ∉ (g i).objects a → mem o = s.mem o)
  (hlive : ∀ o, o ∉ (g i).objects a → (o ∈ live ↔ o ∈ v.live i))
  (hslab : SlabOk mem (slabs a) (g i) live a)
include h hslabs hmem hlive hslab

/-- The slab at `a` is set up or changed, with all its bytes its own: another
header, other words in its objects, other live objects. The other slabs are not
affected. -/
theorem patch (howns : Owns v.owner (some i) a ((g i).slabSize * pageSize)) :
    Core g { s with slabs := slabs, mem := mem }
      { v with slabs := Function.update v.slabs i (insert a (v.slabs i))
               live := Function.update v.live i live } := by
  have hmember : ∀ j b, b ∈ Function.update v.slabs i (insert a (v.slabs i)) j →
      (j = i ∧ b = a) ∨ b ∈ v.slabs j := by
    intro j b hb
    by_cases hj : j = i
    · subst hj
      rw [update_self, mem_insert] at hb
      exact hb.imp_left fun he => ⟨rfl, he⟩
    · rw [update_of_ne hj] at hb
      exact .inr hb
  have hgrow : ∀ j b, b ∈ v.slabs j → b ∈ Function.update v.slabs i (insert a (v.slabs i)) j := by
    intro j b hb
    by_cases hj : j = i
    · subst hj
      rw [update_self]
      exact mem_insert_of_mem hb
    · rwa [update_of_ne hj]
  refine { h with owns := ?_, slab := ?_, live := ?_ }
  · intro j b hb
    rcases hmember j b hb with ⟨rfl, rfl⟩ | hb
    · exact howns
    · exact h.owns j b hb
  · intro j b hb
    by_cases hsame : j = i ∧ b = a
    · obtain ⟨rfl, rfl⟩ := hsame
      simpa using hslab
    have hb := (hmember j b hb).resolve_left hsame
    -- A byte of this slab would belong to the slab at `a` as well.
    have hother : ∀ x, b ≤ x → x < b + (g j).slabSize * pageSize →
        ¬ (a ≤ x ∧ x < a + (g i).slabSize * pageSize) := by
      intro x hlo hhi hx
      have heq := (h.owns j b hb).eq howns ⟨hlo, hhi⟩ hx
      exact hsame ⟨some.inj heq.1, heq.2⟩
    have hne : b ≠ a := by
      rintro rfl
      have hj := h.slab_pos j
      have hi := h.slab_pos i
      exact hother b le_rfl (by omega) ⟨le_rfl, by omega⟩
    have hout : ∀ o ∈ (g j).objects b, o ∉ (g i).objects a := by
      intro o ho ho'
      have hr := (h.valid j).object_range ho
      have hr' := (h.valid i).object_range ho'
      have hsize := (h.valid i).size
      have hsize' := (h.valid j).size
      exact hother o (by omega) (by omega) ⟨by omega, by omega⟩
    change SlabOk mem (slabs b) _ _ b
    rw [hslabs b hne]
    refine (h.slab j b hb).frame (fun o ho _ => hmem o (hout o ho)) ?_
    intro o ho
    by_cases hj : j = i
    · subst hj
      simpa using hlive o (hout o ho)
    · simp [update_of_ne hj]
  intro j o ho
  have hold : o ∈ v.live j → ∃ b ∈ Function.update v.slabs i (insert a (v.slabs i)) j,
      o ∈ (g j).objects b := by
    intro ho
    obtain ⟨b, hb, hob⟩ := h.live j o ho
    exact ⟨b, hgrow j b hb, hob⟩
  by_cases hj : j = i
  · subst hj
    simp only [update_self] at ho
    by_cases hoa : o ∈ (g j).objects a
    · exact ⟨a, by simp, hoa⟩
    · exact hold ((hlive o hoa).mp ho)
  · simp only [update_of_ne hj] at ho
    exact hold ho

/-- The same for a slab the cache has already. -/
theorem update (ha : a ∈ v.slabs i) : Core g { s with slabs := slabs, mem := mem }
    { v with live := Function.update v.live i live } := by
  have hpatch := h.patch slabs hslabs hmem hlive hslab (h.owns i a ha)
  rwa [insert_eq_of_mem ha, update_eq_self] at hpatch

end

section

variable (h : Core g s v)
include h

/-- `slab_alloc_obj` on a slab that is not full hands out an object that was not
live. -/
theorem take (ha : a ∈ v.slabs i) (hroom : (s.slabs a).inUse < (s.slabs a).total) :
    ∃ o next, o ∈ (g i).objects a ∧ o ∉ v.live i ∧
      slabAllocObj s a = (o, s.modifySlab a fun h =>
        { h with freeList := next, inUse := h.inUse + 1 }) ∧
      Core g (slabAllocObj s a).2 (v.take i o) := by
  have hslab := h.slab i a ha
  obtain ⟨o, xs, ⟨hhead, hchain⟩, hnd, hxs⟩ := hslab.free_cons (h.valid i) hroom
  obtain ⟨hobj, hfree⟩ := (hxs o).mp mem_cons_self
  obtain ⟨hout, hnd⟩ := nodup_cons.mp hnd
  have hlt : (s.slabs a).inUse < 2 ^ 32 - 1 := by
    have := (h.valid i).objs_lt
    rw [← hslab.total] at this
    omega
  have halloc : slabAllocObj s a = (o, s.modifySlab a fun h =>
      { h with freeList := s.mem o, inUse := h.inUse + 1 }) := by
    simp [slabAllocObj, hhead, HeapState.modifySlab, incr32_of_lt hlt]
  refine ⟨o, s.mem o, hobj, hfree, halloc, ?_⟩
  rw [halloc]
  refine h.update _ (fun b hb => update_of_ne hb _ _) (fun _ _ => rfl) ?_ ?_ ha
  · intro x hx
    have hne : x ≠ o := fun he => hx (he ▸ hobj)
    simp [hne]
  refine ⟨hslab.aligned, ?_, ?_, xs, ?_, hnd, ?_⟩
  · simpa using hslab.total
  · rw [inter_insert_of_mem hobj, card_insert_of_notMem (by simp [hfree]),
      ← hslab.inUse]
    simp
  · simpa using hchain
  intro x
  have hx := hxs x
  rw [List.mem_cons] at hx
  by_cases he : x = o
  · subst he
    simp [hout]
  · simp only [he, false_or] at hx
    simp [hx, he]

/-- `slab_free_obj` of a live object of the slab. -/
theorem release (ha : a ∈ v.slabs i) (hobj : o ∈ (g i).objects a) (hlive : o ∈ v.live i) :
    ∃ n, (s.slabs a).inUse = n + 1 ∧
      slabFreeObj s a o = (s.setWord o (s.slabs a).freeList).modifySlab a (fun h =>
        { h with freeList := some o, inUse := n }) ∧
      Core g (slabFreeObj s a o) (v.release i o) := by
  have hslab := h.slab i a ha
  obtain ⟨xs, hchain, hnd, hxs⟩ := hslab.free
  have hcard : (s.slabs a).inUse = ((g i).objects a ∩ (v.live i).erase o).card + 1 := by
    rw [inter_erase, card_erase_add_one (mem_inter.mpr ⟨hobj, hlive⟩), hslab.inUse]
  have hout : o ∉ xs := fun ho => ((hxs o).mp ho).2 hlive
  refine ⟨_, hcard, ?_, ?_⟩
  · simp [slabFreeObj, HeapState.modifySlab, HeapState.setWord, hcard, decr32_succ]
  refine h.update _ (fun b hb => update_of_ne hb _ _) ?_ ?_ ?_ ha
  · intro x hx
    have hne : x ≠ o := fun he => hx (he ▸ hobj)
    exact update_of_ne hne _ _
  · intro x hx
    have hne : x ≠ o := fun he => hx (he ▸ hobj)
    simp [hne]
  refine ⟨hslab.aligned, ?_, ?_, o :: xs, ?_, nodup_cons.mpr ⟨hout, hnd⟩, ?_⟩
  · simpa [HeapState.setWord] using hslab.total
  · simp [HeapState.setWord, hcard, decr32_succ]
  · simp only [HeapState.setWord, update_self]
    refine hchain.push (update_self _ _ _) fun y hy => update_of_ne ?_ _ _
    exact fun he => hout (he ▸ hy)
  intro x
  rw [List.mem_cons, hxs x]
  by_cases he : x = o
  · subst he
    simp [hobj]
  · simp [he]

/-! ### Slabs come and go -/

/-- The header and the objects of a new slab that has a page run to itself. -/
theorem addSlab (halign : pageSize ∣ a) (hwrap : a + 16 * pageSize < 2 ^ 64)
    (howns : Owns v.owner (some i) a ((g i).slabSize * pageSize)) (hfresh : a ∉ v.slabs i) :
    ∃ mem header, header.inUse = 0 ∧
      chainObjects (s.modifySlab a fun _ =>
          ⟨none, 0, (g i).objsPerSlab, a + (g i).firstObject⟩) a (g i).objSize =
        { s with mem := mem }.modifySlab a (fun _ => header) ∧
      Core g ({ s with mem := mem }.modifySlab a fun _ => header)
        { v with slabs := Function.update v.slabs i (insert a (v.slabs i)) } := by
  have hval := h.valid i
  have hfits := hval.fits
  have hsmall := hval.small
  have hsize := hval.size
  have hnone : ∀ o ∈ (g i).objects a, o ∉ v.live i := by
    intro o ho hlive
    obtain ⟨b, hb, hob⟩ := h.live i o hlive
    have hr := hval.object_range ho
    have hr' := hval.object_range hob
    have heq := howns.eq (h.owns i b hb) (x := o) (by omega) (by omega)
    exact hfresh (heq.2 ▸ hb)
  have hpos : 0 < (g i).objSize := by omega
  obtain ⟨mem, xs, hchain, hxs, hnd, hobj, hmem⟩ := chainObjects_spec (a := a)
    (s.modifySlab a fun _ => ⟨none, 0, (g i).objsPerSlab, a + (g i).firstObject⟩) hpos
    (by simp [HeapState.modifySlab]) (by
      simp only [HeapState.modifySlab, update_self, pageSize] at hfits hwrap ⊢
      omega)
  simp only [HeapState.modifySlab, update_self, update_idem] at hchain hobj
  have hobj : ∀ o, o ∈ xs ↔ o ∈ (g i).objects a := fun o =>
    (hobj o).trans Geometry.Valid.mem_objects.symm
  refine ⟨mem, _, ?_, hchain, ?_⟩
  · rfl
  have hpatch := h.patch
    (Function.update s.slabs a ⟨xs.head?, 0, (g i).objsPerSlab, a + (g i).firstObject⟩)
    (fun b hb => update_of_ne hb _ _) (fun o ho => hmem o fun hin => ho ((hobj o).mp hin))
    (fun _ _ => Iff.rfl) ?_ howns
  · rwa [update_eq_self] at hpatch
  rw [update_self]
  refine ⟨halign, rfl, ?_, xs, hxs, hnd, fun o => ?_⟩
  · rw [disjoint_iff_inter_eq_empty.mp (disjoint_left.mpr hnone), card_empty]
  · rw [hobj o, iff_self_and]
    exact hnone o

/-- `slab_create` fails or adds a slab without live objects above all others. -/
theorem create (i : ι) (pages : Nat → Option Nat) :
    ((slabCreate s i pages).1 = 0 ∧ Core g (slabCreate s i pages).2 v ∧
        (slabCreate s i pages).2.slabs = s.slabs ∧ (slabCreate s i pages).2.caches = s.caches) ∨
      ∃ header, header.inUse = 0 ∧ (slabCreate s i pages).1 = s.current ∧
        (slabCreate s i pages).2.slabs = Function.update s.slabs s.current header ∧
        (slabCreate s i pages).2.caches = s.caches ∧
        Core g (slabCreate s i pages).2 (v.addSlab i s.current ((g i).slabSize * pageSize)) := by
  have hpos := h.slab_pos i
  obtain ⟨hlow, hhigh⟩ := h.range
  simp only [kheapStart, kheapEnd] at hlow hhigh
  have hne : s.current ≠ 0 := by omega
  have hroom : s.current + 16 * pageSize < 2 ^ 64 := by
    simp only [pageSize]
    omega
  have hwrap : s.current + (g i).slabSize * pageSize < 2 ^ 64 :=
    (Nat.add_le_add_left (Nat.mul_le_mul_right _ (h.valid i).small) _).trans_lt hroom
  have hfirst := (h.valid i).alignUp_header h.aligned (by omega)
  have hgeo := h.geometry i
  have hsize := congrArg Geometry.slabSize hgeo
  unfold slabCreate
  simp only [hsize]
  rcases h.pages hwrap pages with ⟨hzero, hcore, hslabs, hcaches⟩ | ⟨haddr, hslabs, hcaches, hcore⟩
  · left
    simp only [hzero, if_true]
    exact ⟨trivial, hcore, hslabs, hcaches⟩
  right
  have halign := congrArg Geometry.align hgeo
  have hobjs := congrArg Geometry.objsPerSlab hgeo
  have hobjSize := congrArg Geometry.objSize hgeo
  have howns : Owns (v.claim (some i) s.current ((g i).slabSize * pageSize)).owner (some i)
      s.current ((g i).slabSize * pageSize) := fun x hlo hhi => if_pos ⟨hlo, hhi⟩
  have hfresh : s.current ∉ v.slabs i := by
    intro hin
    have := h.slab_range hin
    omega
  obtain ⟨mem, header, hzero, hchain, hnew⟩ := (hcore (some i)).addSlab h.aligned hroom howns hfresh
  simp only [haddr, if_neg hne, halign, hfirst, hobjs, hobjSize]
  refine ⟨header, hzero, trivial, ?_⟩
  rw [hchain]
  refine ⟨?_, hcaches, hnew⟩
  simp [HeapState.modifySlab, hslabs]

/-- `slab_destroy` of a slab without live objects. -/
theorem destroy (ha : a ∈ v.slabs i) (hemp : ∀ o ∈ (g i).objects a, o ∉ v.live i) :
    Core g (heapFreePages s a (g i).slabSize) (v.dropSlab i a ((g i).slabSize * pageSize)) := by
  obtain ⟨hstart, hstop⟩ := h.slab_range ha
  have hend := h.range.2
  have hkeep : ∀ x, (v.dropSlab i a ((g i).slabSize * pageSize)).owner x ≠ none →
      ¬ (a ≤ x ∧ x < a + (g i).slabSize * pageSize) ∧ v.owner x ≠ none := by
    intro x hx
    by_cases hin : a ≤ x ∧ x < a + (g i).slabSize * pageSize
    · exact absurd (if_pos hin) hx
    · exact ⟨hin, fun hnone => hx ((if_neg hin).trans hnone)⟩
  -- The extents of everybody else are as they were.
  have howns : ∀ {k : Option ι} {b n : Nat}, Owns v.owner k b n → (k, b) ≠ (some i, a) →
      Owns (v.dropSlab i a ((g i).slabSize * pageSize)).owner k b n := by
    intro k b n hb hne x hlo hhi
    refine (if_neg fun hin => hne ?_).trans (hb x hlo hhi)
    obtain ⟨hk, hab⟩ := hb.eq (h.owns i a ha) ⟨hlo, hhi⟩ hin
    rw [hk, hab]
  have hmember : ∀ j b, b ∈ (v.dropSlab i a ((g i).slabSize * pageSize)).slabs j ↔
      b ∈ v.slabs j ∧ (some j, b) ≠ (some i, a) := by
    intro j b
    by_cases hj : j = i
    · subst hj
      simp [View.dropSlab, and_comm]
    · simp [View.dropSlab, hj]
  refine { h with below := fun x hx => h.below x (hkeep x hx).2, mapped := ?_, owns := ?_,
                  runs := ?_, slab := ?_, live := ?_ }
  · intro x hx
    obtain ⟨hout, hold⟩ := hkeep x hx
    have hmap := h.mapped x hold
    change unmapPages a (g i).slabSize s.kmap _ ≠ none
    rw [unmapPages_apply (by simp only [kheapEnd] at hend; omega), if_neg]
    · exact hmap
    rintro ⟨k, hk, heq⟩
    simp only [pageSize] at heq hout
    omega
  · intro j b hb
    obtain ⟨hb, hne⟩ := (hmember j b).mp hb
    exact howns (h.owns j b hb) hne
  · intro r hr
    exact howns (h.runs r hr) (by simp)
  · intro j b hb
    exact h.slab j b ((hmember j b).mp hb).1
  intro j o ho
  obtain ⟨b, hb, hob⟩ := h.live j o ho
  refine ⟨b, (hmember j b).mpr ⟨hb, ?_⟩, hob⟩
  intro heq
  obtain ⟨rfl, rfl⟩ := heq
  exact hemp o hob ho

end

end Core

end Kurios.Heap
