import Kurios.Heap.Slab

/-!
The slab lists of a cache, `kmem_cache_alloc` and `kmem_cache_free`.

`CacheOk` says that the full, partial and empty list of a cache partition its
slabs by their counters. A slab that an operation has taken off its list and not
yet put on another one is `InHand`; the three ways to find a slab in
`kmem_cache_alloc` all lead there, so they share one lemma, `InHand.alloc`.

A slab with room for one object goes from full to partial when that object is
freed, although it is empty then; so a partial slab is known not to be full, and to be
in use only if it has room for two objects.
-/

namespace Kurios.Heap

open Base Pmm Function List Finset

variable {slabs : Nat → Slab} {f : Cache → Cache}

/-! ### The lists -/

/-- What the counters of a partial slab say. -/
def Slab.IsPartial (h : Slab) : Prop := h.inUse < h.total ∧ (2 ≤ h.total → 0 < h.inUse)

/-- The lists of cache `c` hold each slab of `S` once, in the list its counters ask
for. -/
structure CacheOk (slabs : Nat → Slab) (c : Cache) (S : Finset Nat) : Prop where
  nodup : (c.slabsFull ++ c.slabsPartial ++ c.slabsEmpty).Nodup
  mem : ∀ a, a ∈ c.slabsFull ++ c.slabsPartial ++ c.slabsEmpty ↔ a ∈ S
  full : ∀ a ∈ c.slabsFull, (slabs a).inUse = (slabs a).total
  room : ∀ a ∈ c.slabsPartial, (slabs a).IsPartial
  unused : ∀ a ∈ c.slabsEmpty, (slabs a).inUse = 0

namespace CacheOk

variable {slabs slabs' : Nat → Slab} {c : Cache} {S : Finset Nat} {a : Nat}

section

variable (h : CacheOk slabs c S)
include h

theorem mem_cases (ha : a ∈ S) : a ∈ c.slabsFull ∨ a ∈ c.slabsPartial ∨ a ∈ c.slabsEmpty := by
  simpa [or_assoc] using (h.mem a).mpr ha

theorem mem_full (ha : a ∈ c.slabsFull) : a ∈ S := (h.mem a).mp (by simp [ha])

theorem mem_ofPartial (ha : a ∈ c.slabsPartial) : a ∈ S := (h.mem a).mp (by simp [ha])

theorem mem_empty (ha : a ∈ c.slabsEmpty) : a ∈ S := (h.mem a).mp (by simp [ha])

/-- Only the headers of the slabs on the lists matter. -/
theorem frame (hsame : ∀ b ∈ S, slabs' b = slabs b) : CacheOk slabs' c S where
  __ := h
  full a ha := by rw [hsame a (h.mem_full ha)]; exact h.full a ha
  room a ha := by rw [hsame a (h.mem_ofPartial ha)]; exact h.room a ha
  unused a ha := by rw [hsame a (h.mem_empty ha)]; exact h.unused a ha

/-- A partial slab may change as long as it does not become full. -/
theorem touch (ha : a ∈ c.slabsPartial) (hsame : ∀ b, b ≠ a → slabs' b = slabs b)
    (hroom : (slabs' a).IsPartial) : CacheOk slabs' c S := by
  have hnd := h.nodup
  simp only [nodup_append, mem_append] at hnd
  obtain ⟨⟨-, -, hfp⟩, -, hpe⟩ := hnd
  refine ⟨h.nodup, h.mem, ?_, ?_, ?_⟩ <;> intro b hb
  · rw [hsame b (hfp b hb a ha)]
    exact h.full b hb
  · by_cases he : b = a
    · rwa [he]
    · rw [hsame b he]
      exact h.room b hb
  · rw [hsame b (hpe a (.inr ha) b hb).symm]
    exact h.unused b hb

/-- A slab is taken off the list that it is on. -/
theorem remove {full part empty}
    (hperm : (c.slabsFull ++ c.slabsPartial ++ c.slabsEmpty).Perm (a :: (full ++ part ++ empty)))
    (hfull : full <+ c.slabsFull) (hpart : part <+ c.slabsPartial) (hempty : empty <+ c.slabsEmpty)
    :
    CacheOk slabs { c with slabsFull := full, slabsPartial := part, slabsEmpty := empty }
      (S.erase a) := by
  obtain ⟨hout, hnd⟩ := nodup_cons.mp (hperm.nodup h.nodup)
  refine ⟨hnd, fun b => ?_, fun b hb => h.full b (hfull.subset hb),
    fun b hb => h.room b (hpart.subset hb), fun b hb => h.unused b (hempty.subset hb)⟩
  rw [mem_erase, ← h.mem b, hperm.mem_iff, List.mem_cons]
  exact ⟨fun hb => ⟨fun heq => hout (heq ▸ hb), .inr hb⟩, fun hb => hb.2.resolve_left hb.1⟩

theorem removeFull (ha : a ∈ c.slabsFull) :
    CacheOk slabs { c with slabsFull := c.slabsFull.erase a } (S.erase a) :=
  h.remove (((perm_cons_erase ha).append_right _).append_right _) erase_sublist (.refl _) (.refl _)

theorem removePartial (ha : a ∈ c.slabsPartial) :
    CacheOk slabs { c with slabsPartial := c.slabsPartial.erase a } (S.erase a) :=
  h.remove ((((perm_cons_erase ha).append_left _).trans perm_middle).append_right _) (.refl _)
    erase_sublist (.refl _)

theorem removeEmpty (ha : a ∈ c.slabsEmpty) :
    CacheOk slabs { c with slabsEmpty := c.slabsEmpty.erase a } (S.erase a) :=
  h.remove (((perm_cons_erase ha).append_left _).trans perm_middle) (.refl _) (.refl _)
    erase_sublist

end

section

variable (h : CacheOk slabs c (S.erase a))
include h

/-- A slab in hand goes on the front of the list its counters ask for. -/
theorem add (ha : a ∈ S) {full part empty}
    (hperm : (full ++ part ++ empty).Perm (a :: (c.slabsFull ++ c.slabsPartial ++ c.slabsEmpty)))
    (hfull : ∀ b ∈ full, b ∈ c.slabsFull ∨ b = a ∧ (slabs a).inUse = (slabs a).total)
    (hroom : ∀ b ∈ part, b ∈ c.slabsPartial ∨ b = a ∧ (slabs a).IsPartial)
    (hunu : ∀ b ∈ empty, b ∈ c.slabsEmpty ∨ b = a ∧ (slabs a).inUse = 0) :
    CacheOk slabs { c with slabsFull := full, slabsPartial := part, slabsEmpty := empty } S := by
  have hout : a ∉ c.slabsFull ++ c.slabsPartial ++ c.slabsEmpty := by
    rw [h.mem a]
    exact notMem_erase a S
  refine ⟨hperm.nodup_iff.mpr (nodup_cons.mpr ⟨hout, h.nodup⟩), ?_, ?_, ?_, ?_⟩
  · intro b
    rw [hperm.mem_iff, List.mem_cons, h.mem b, mem_erase]
    by_cases he : b = a
    · simp [he, ha]
    · simp [he]
  · intro b hb
    rcases hfull b hb with hold | ⟨rfl, hnew⟩
    · exact h.full b hold
    · exact hnew
  · intro b hb
    rcases hroom b hb with hold | ⟨rfl, hnew⟩
    · exact h.room b hold
    · exact hnew
  intro b hb
  rcases hunu b hb with hold | ⟨rfl, hnew⟩
  · exact h.unused b hold
  · exact hnew

theorem addFull (ha : a ∈ S) (hfull : (slabs a).inUse = (slabs a).total) :
    CacheOk slabs { c with slabsFull := a :: c.slabsFull } S :=
  h.add ha (List.Perm.refl _) (by simp +contextual [hfull, or_imp]) (fun _ => .inl) fun _ => .inl

theorem addPartial (ha : a ∈ S) (hroom : (slabs a).IsPartial) :
    CacheOk slabs { c with slabsPartial := a :: c.slabsPartial } S := by
  refine h.add ha ?_ (fun _ => .inl) (by simp +contextual [hroom, or_imp]) fun _ => .inl
  exact List.Perm.append_right _ perm_middle

end

end CacheOk

/-! ### The heap -/

variable {ι : Type} {g : ι → Geometry} {s t : HeapState ι} {v : View ι} {i j : ι} {a o : Nat}

section

variable (g : ι → Geometry) (s : HeapState ι) (v : View ι)

/-- The heap state `s` is described by `v`, and every slab is on its list. -/
structure Inv : Prop extends Core g s v where
  lists : ∀ i, CacheOk s.slabs (s.caches i) (v.slabs i)

/-- The same, except that the slab at `a` of cache `i` is on no list. -/
structure InHand (i : ι) (a : Nat) : Prop extends Core g s v where
  member : a ∈ v.slabs i
  lists : ∀ j, CacheOk s.slabs (s.caches j) ((v.slabs j).erase a)

end

variable [DecidableEq ι]

/-- Relinking slabs does not touch them. -/
theorem Core.relist (h : Core g s v) (i : ι)
    (hf : (f (s.caches i)).toGeometry = (s.caches i).toGeometry) :
    Core g (s.modifyCache i f) v := by
  refine { h with geometry := fun j => ?_ }
  by_cases hj : j = i
  · subst hj
    simpa [HeapState.modifyCache] using hf.trans (h.geometry j)
  · simpa [HeapState.modifyCache, hj] using h.geometry j

/-- One cache is relinked, the others keep their lists. -/
theorem relist_lists {S : ι → Finset Nat} (h : CacheOk slabs (f (s.caches i)) (S i))
    (hother : ∀ j, j ≠ i → CacheOk slabs (s.caches j) (S j)) (j : ι) :
    CacheOk slabs ((s.modifyCache i f).caches j) (S j) := by
  by_cases hj : j = i
  · subst hj
    simpa [HeapState.modifyCache] using h
  · simpa [HeapState.modifyCache, hj] using hother j hj

omit [DecidableEq ι] in
/-- The slab belongs to one cache only. -/
theorem Core.erase_slab (h : Core g s v) (ha : a ∈ v.slabs i) (hj : j ≠ i) :
    (v.slabs j).erase a = v.slabs j :=
  erase_eq_of_notMem fun hb => hj (h.slab_inj hb ha)

namespace InHand

section

variable (h : InHand g s v i a)
include h

/-- The slab goes on the list of the full or of the partial slabs. -/
theorem place (hused : 0 < (s.slabs a).inUse) : Inv g (placeSlab s i a) v := by
  have hle := (h.slab i a h.member).inUse_le (h.valid i)
  have hother : ∀ j, j ≠ i → CacheOk s.slabs (s.caches j) (v.slabs j) := fun j hj =>
    h.erase_slab h.member hj ▸ h.lists j
  unfold placeSlab
  split
  · next hfull =>
    exact ⟨h.toCore.relist i rfl, relist_lists ((h.lists i).addFull h.member hfull) hother⟩
  · next hroom =>
    exact ⟨h.toCore.relist i rfl,
      relist_lists ((h.lists i).addPartial h.member ⟨by omega, fun _ => hused⟩) hother⟩

/-- An object of the slab is handed out and the slab is put on a list. -/
theorem alloc (hroom : (s.slabs a).inUse < (s.slabs a).total) :
    ∃ o, o ∈ (g i).objects a ∧ o ∉ v.live i ∧ (slabAllocObj s a).1 = o ∧
      Inv g (placeSlab (slabAllocObj s a).2 i a) (v.take i o) := by
  obtain ⟨o, next, hobj, hfree, halloc, hcore⟩ := h.toCore.take h.member hroom
  rw [halloc] at hcore ⊢
  refine ⟨o, hobj, hfree, rfl, InHand.place ⟨hcore, h.member, fun j => ?_⟩ ?_⟩
  swap
  · simp [HeapState.modifySlab]
  refine (h.lists j).frame fun b hb => ?_
  exact update_of_ne (ne_of_mem_erase hb) _ _

/-- An empty slab goes on the list of the empty slabs. -/
theorem keep (hunu : (s.slabs a).inUse = 0) :
    Inv g (s.modifyCache i fun c => { c with slabsEmpty := a :: c.slabsEmpty }) v := by
  refine ⟨h.toCore.relist i rfl, relist_lists ?_ fun j hj => ?_⟩
  · exact (h.lists i).add h.member perm_middle (fun _ => .inl) (fun _ => .inl)
      (by simp +contextual [hunu, or_imp])
  · exact h.erase_slab h.member hj ▸ h.lists j

/-- An empty slab is destroyed. -/
theorem destroy (hunu : (s.slabs a).inUse = 0) :
    Inv g (heapFreePages s a (s.caches i).slabSize)
      (v.dropSlab i a ((g i).slabSize * pageSize)) := by
  have hemp : ∀ o ∈ (g i).objects a, o ∉ v.live i := by
    intro o ho hlive
    rw [(h.slab i a h.member).inUse, card_eq_zero] at hunu
    exact notMem_empty o (hunu ▸ mem_inter.mpr ⟨ho, hlive⟩)
  have hsize : (s.caches i).slabSize = (g i).slabSize := congrArg Geometry.slabSize (h.geometry i)
  rw [hsize]
  refine ⟨h.toCore.destroy h.member hemp, fun j => ?_⟩
  by_cases hj : j = i
  · subst hj
    simpa [View.dropSlab, heapFreePages] using h.lists j
  · have hlists := h.lists j
    rw [h.erase_slab h.member hj] at hlists
    simpa [View.dropSlab, heapFreePages, hj] using hlists

end

end InHand

/-! ### `kmem_cache_alloc` -/

/-- What a call that hands out `o` does to the view. The slabs and the owners may
change, the page runs do not. -/
structure Handed (v v' : View ι) (i : ι) (o : Nat) : Prop where
  fresh : o ∉ v.live i
  live : v'.live = update v.live i (insert o (v.live i))
  runs : v'.runs = v.runs

/-- An allocation from cache `i` either fails and changes nothing in the view, or
hands out an object that was not live. -/
def AllocSpec (g : ι → Geometry) (v : View ι) (i : ι) (r : Nat × HeapState ι) : Prop :=
  (r.1 = 0 ∧ Inv g r.2 v) ∨ (r.1 ≠ 0 ∧ ∃ v', Handed v v' i r.1 ∧ Inv g r.2 v')

theorem AllocSpec.handed (v' : View ι) (hne : o ≠ 0) (hhanded : Handed v v' i o)
    (hinv : Inv g t v') : AllocSpec g v i (o, t) :=
  .inr ⟨hne, v', hhanded, hinv⟩

namespace Inv

section

variable (h : Inv g s v)
include h

omit [DecidableEq ι] in
/-- What changes in one slab does not affect the lists of another cache. -/
theorem lists_other (ha : a ∈ v.slabs i) (hsame : ∀ b, b ≠ a → slabs b = s.slabs b) (hj : j ≠ i) :
    CacheOk slabs (s.caches j) (v.slabs j) := by
  refine (h.lists j).frame fun b hb => hsame b ?_
  rintro rfl
  exact hj (h.slab_inj hb ha)

omit [DecidableEq ι] in
theorem object_ne_zero (hobj : o ∈ (g i).objects a) : o ≠ 0 := by
  have hrng := (h.valid i).object_range hobj
  simp only [slabHeaderSize] at hrng
  omega

theorem allocPartial (ha : a ∈ (s.caches i).slabsPartial) :
    AllocSpec g v i (allocPartial s i a) := by
  have hmem := (h.lists i).mem_ofPartial ha
  have hroom := ((h.lists i).room a ha).1
  obtain ⟨o, next, hobj, hfree, halloc, hcore⟩ := h.toCore.take hmem hroom
  rw [halloc] at hcore
  have hsame : ∀ b, b ≠ a → (s.modifySlab a fun h =>
      { h with freeList := next, inUse := h.inUse + 1 }).slabs b = s.slabs b :=
    fun b hb => update_of_ne hb _ _
  have hhanded : Handed v (v.take i o) i o := ⟨hfree, rfl, rfl⟩
  unfold Heap.allocPartial
  simp only [halloc]
  split
  · next hfull =>
    refine .handed (v.take i o) (h.object_ne_zero hobj) hhanded ⟨hcore.relist i rfl, ?_⟩
    refine relist_lists ?_ fun j => h.lists_other hmem hsame
    refine CacheOk.addFull (((h.lists i).removePartial ha).frame fun b hb => ?_) hmem hfull
    exact hsame b (ne_of_mem_erase hb)
  next hfull =>
  refine .handed (v.take i o) (h.object_ne_zero hobj) hhanded ⟨hcore, fun j => ?_⟩
  by_cases hj : j = i
  · subst hj
    refine (h.lists j).touch ha hsame ?_
    simp only [HeapState.modifySlab, update_self, Slab.IsPartial] at hfull ⊢
    omega
  · exact h.lists_other hmem hsame hj

theorem allocEmpty (ha : a ∈ (s.caches i).slabsEmpty) : AllocSpec g v i (allocEmpty s i a) := by
  have hmem := (h.lists i).mem_empty ha
  have hslab := h.slab i a hmem
  have hroom : (s.slabs a).inUse < (s.slabs a).total := by
    have := (h.valid i).nonempty
    rw [(h.lists i).unused a ha, hslab.total]
    omega
  have hhand : InHand g (s.modifyCache i fun c =>
      { c with slabsEmpty := c.slabsEmpty.erase a }) v i a := by
    refine ⟨h.toCore.relist i rfl, hmem, ?_⟩
    refine relist_lists ((h.lists i).removeEmpty ha) fun j hj => ?_
    rw [h.erase_slab hmem hj]
    exact h.lists j
  obtain ⟨o, hobj, hfree, heq, hinv⟩ := hhand.alloc hroom
  unfold Heap.allocEmpty
  simp only [heq]
  exact .handed (v.take i o) (h.object_ne_zero hobj) ⟨hfree, rfl, rfl⟩ hinv

theorem allocNew (i : ι) (pages : Nat → Option Nat) : AllocSpec g v i (allocNew s i pages) := by
  unfold Heap.allocNew
  rcases h.toCore.create i pages with ⟨hzero, hcore, hslabs, hcaches⟩ |
    ⟨header, hunu, haddr, hslabs, hcaches, hcore⟩
  · simp only [hzero, if_true]
    refine .inl ⟨rfl, hcore, fun j => ?_⟩
    rw [hslabs, hcaches]
    exact h.lists j
  have hlow := h.range.1
  have hne : s.current ≠ 0 := by
    simp only [kheapStart] at hlow
    omega
  simp only [haddr, if_neg hne]
  have hfresh : ∀ j, s.current ∉ v.slabs j := by
    intro j hj
    have := h.slab_range hj
    have := h.slab_pos j
    omega
  have hmem : s.current ∈ (v.addSlab i s.current ((g i).slabSize * pageSize)).slabs i := by
    simp [View.addSlab]
  have hroom : ((slabCreate s i pages).2.slabs s.current).inUse <
      ((slabCreate s i pages).2.slabs s.current).total := by
    have hpos := (h.valid i).nonempty
    rw [(hcore.slab i _ hmem).total, hslabs, update_self, hunu]
    omega
  have hhand : InHand g (slabCreate s i pages).2
      (v.addSlab i s.current ((g i).slabSize * pageSize)) i s.current := by
    refine ⟨hcore, hmem, fun j => ?_⟩
    -- Without the new slab the cache has the slabs it had before.
    have herase : ((v.addSlab i s.current ((g i).slabSize * pageSize)).slabs j).erase s.current =
        v.slabs j := by
      by_cases hj : j = i
      · subst hj
        simp [View.addSlab, erase_insert (hfresh j)]
      · simp [View.addSlab, hj, hfresh j]
    rw [herase, hcaches, hslabs]
    refine (h.lists j).frame fun b hb => update_of_ne ?_ _ _
    rintro rfl
    exact hfresh j hb
  obtain ⟨o, hobj, hfree, heq, hinv⟩ := hhand.alloc hroom
  simp only [heq]
  exact .handed ((v.addSlab i s.current ((g i).slabSize * pageSize)).take i o)
    (h.object_ne_zero hobj) ⟨hfree, rfl, rfl⟩ hinv

theorem takeObject (i : ι) (pages : Nat → Option Nat) : AllocSpec g v i (takeObject s i pages) := by
  unfold Heap.takeObject
  split
  · next hpart => exact h.allocPartial (by rw [hpart]; exact mem_cons_self)
  · split
    · next hemp => exact h.allocEmpty (by rw [hemp]; exact mem_cons_self)
    · exact h.allocNew i pages

omit [DecidableEq ι] in
/-- Bytes stored inside a live object. -/
theorem store (hlive : o ∈ v.live i) {lo hi} (hlo : o ≤ lo) (hhi : hi ≤ o + (g i).objSize)
    (value : Nat → Option Nat) : Inv g (s.store lo hi value) v :=
  ⟨h.toCore.store hlive hlo hhi value, h.lists⟩

/-- `kmem_cache_alloc`. -/
theorem alloc (i : ι) (pages : Nat → Option Nat) : AllocSpec g v i (kmemCacheAlloc s i pages) := by
  have htake := h.takeObject i pages
  have hsize : (s.caches i).objSize = (g i).objSize := congrArg Geometry.objSize (h.geometry i)
  unfold kmemCacheAlloc
  simp only
  split
  · next hzero =>
    rcases htake with ⟨hnull, -⟩ | ⟨hne, v', hhanded, hinv⟩
    · exact absurd hnull hzero.1
    · refine .inr ⟨hne, v', hhanded, hinv.store ?_ le_rfl (by rw [hsize]) _⟩
      rw [hhanded.live, update_self]
      exact mem_insert_self _ _
  · exact htake

omit [DecidableEq ι] in
/-- `heap_alloc_pages` for somebody else. -/
theorem pages {n} (hwrap : s.current + n * pageSize < 2 ^ 64) (pages : Nat → Option Nat) :
    ((heapAllocPages s n pages).1 = 0 ∧ Inv g (heapAllocPages s n pages).2 v) ∨
      ((heapAllocPages s n pages).1 = s.current ∧
        Inv g (heapAllocPages s n pages).2 (v.addRun s.current (n * pageSize))) := by
  rcases h.toCore.pages hwrap pages with ⟨hzero, hcore, hslabs, hcaches⟩ |
    ⟨haddr, hslabs, hcaches, hcore⟩
  · refine .inl ⟨hzero, hcore, fun j => ?_⟩
    rw [hslabs, hcaches]
    exact h.lists j
  refine .inr ⟨haddr, { hcore none with runs := ?_ }, fun j => ?_⟩
  · intro r hr
    rcases mem_insert.mp hr with rfl | hold
    · exact fun x hlo hhi => if_pos ⟨hlo, hhi⟩
    · exact (hcore none).runs r hold
  · rw [hslabs, hcaches]
    exact h.lists j

/-! ### `kmem_cache_free` -/

omit [DecidableEq ι] in
/-- The address range that `find_slab_for_obj` compares with is the slab's. -/
theorem slab_stop (ha : a ∈ v.slabs i) :
    u64 (a + (s.caches i).slabSize * pageSize) = a + (g i).slabSize * pageSize := by
  have hsize : (s.caches i).slabSize = (g i).slabSize := congrArg Geometry.slabSize (h.geometry i)
  have hslab := h.slab_range ha
  have hend := h.range.2
  simp only [kheapEnd] at hend
  rw [hsize]
  exact u64_of_lt (by omega)

omit [DecidableEq ι] in
/-- A slab that `find_slab_for_obj` finds owns the address. -/
theorem find_owner (hfind : findSlabForObj (s.caches i) o = some a) :
    (a ∈ (s.caches i).slabsPartial ∨ a ∈ (s.caches i).slabsFull) ∧ a ∈ v.slabs i ∧
      v.owner o = some (some i, a) := by
  have hin : ∀ b ∈ v.slabs i,
      decide (b ≤ o ∧ o < u64 (b + (s.caches i).slabSize * pageSize)) = true →
      v.owner o = some (some i, b) := by
    intro b hb hrng
    rw [h.slab_stop hb, decide_eq_true_eq] at hrng
    exact h.owns i b hb o hrng.1 hrng.2
  rcases Option.or_eq_some_iff.mp hfind with hpart | ⟨-, hfull⟩
  · have hmem := mem_of_find?_eq_some hpart
    have hslab := (h.lists i).mem_ofPartial hmem
    have hrng := find?_some hpart
    exact ⟨.inl hmem, hslab, hin a hslab hrng⟩
  have hmem := mem_of_find?_eq_some hfull
  have hslab := (h.lists i).mem_full hmem
  have hrng := find?_some hfull
  exact ⟨.inr hmem, hslab, hin a hslab hrng⟩

omit [DecidableEq ι] in
/-- The slab of a live object is found. -/
theorem find_live (hlive : o ∈ v.live i) :
    ∃ a ∈ v.slabs i, o ∈ (g i).objects a ∧ findSlabForObj (s.caches i) o = some a := by
  obtain ⟨a, ha, hobj⟩ := h.live i o hlive
  have hrng := (h.valid i).object_range hobj
  have hsize := (h.valid i).size
  have hin : decide (a ≤ o ∧ o < u64 (a + (s.caches i).slabSize * pageSize)) = true := by
    rw [h.slab_stop ha, decide_eq_true_eq]
    omega
  have hused : (s.slabs a).inUse ≠ 0 := by
    rw [(h.slab i a ha).inUse]
    exact card_ne_zero_of_mem (mem_inter.mpr ⟨hobj, hlive⟩)
  have hsome : (findSlabForObj (s.caches i) o).isSome := by
    rw [findSlabForObj, Option.isSome_or, Bool.or_eq_true, find?_isSome, find?_isSome]
    rcases (h.lists i).mem_cases ha with hfull | hpart | hemp
    · exact .inr ⟨a, hfull, hin⟩
    · exact .inl ⟨a, hpart, hin⟩
    · exact absurd ((h.lists i).unused a hemp) hused
  obtain ⟨b, hfind⟩ := Option.isSome_iff_exists.mp hsome
  have howner := (h.find_owner hfind).2.2
  rw [h.owns_object ha hobj ⟨le_rfl, by omega⟩, Option.some.injEq, Prod.mk.injEq] at howner
  exact ⟨a, ha, hobj, howner.2 ▸ hfind⟩

/-- `kmem_cache_free` of a live object. -/
theorem free (hlive : o ∈ v.live i) :
    ∃ v', v'.live = update v.live i ((v.live i).erase o) ∧ v'.runs = v.runs ∧
      Inv g (kmemCacheFree s i o) v' := by
  obtain ⟨a, ha, hobj, hfind⟩ := h.find_live hlive
  have hlst := (h.find_owner hfind).1
  obtain ⟨n, hused, hfree, hcore⟩ := h.toCore.release ha hobj hlive
  have hle := (h.slab i a ha).inUse_le (h.valid i)
  set t := slabFreeObj s a o with ht
  have hsame : ∀ b, b ≠ a → t.slabs b = s.slabs b := by
    intro b hb
    exact update_of_ne hb _ _
  have hheader : (t.slabs a).inUse = n ∧ (t.slabs a).total = (s.slabs a).total := by
    rw [hfree]
    simp [HeapState.modifySlab, HeapState.setWord]
  have hroom : (t.slabs a).inUse < (t.slabs a).total := by omega
  have hother : ∀ j, j ≠ i → CacheOk t.slabs (t.caches j) (v.slabs j) := fun j hj =>
    h.lists_other ha hsame hj
  unfold kmemCacheFree
  simp only [if_neg (h.object_ne_zero hobj), hfind, ← ht]
  split
  · -- The slab was full and has room for one object now.
    next hfull =>
    have hin : a ∈ (s.caches i).slabsFull := hlst.resolve_left fun hp => by
      have := ((h.lists i).room a hp).1
      omega
    have hpart : (t.slabs a).IsPartial := ⟨hroom, by omega⟩
    refine ⟨v.release i o, rfl, rfl, hcore.relist i rfl, relist_lists ?_ hother⟩
    refine CacheOk.addPartial (((h.lists i).removeFull hin).frame fun b hb => ?_) ha hpart
    exact hsame b (ne_of_mem_erase hb)
  next hfull =>
  have hin : a ∈ (s.caches i).slabsPartial := hlst.resolve_right fun hf =>
    hfull ((h.lists i).full a hf)
  split
  · -- That was its last object: the slab is kept if it is the only empty one.
    next hzero =>
    have hhand : InHand g (t.modifyCache i fun c =>
        { c with slabsPartial := c.slabsPartial.erase a }) (v.release i o) i a := by
      refine ⟨hcore.relist i rfl, ha, relist_lists ?_ fun j hj => ?_⟩
      · exact ((h.lists i).removePartial hin).frame fun b hb => hsame b (ne_of_mem_erase hb)
      · have hlists := hother j hj
        rwa [← h.erase_slab ha hj] at hlists
    split
    · exact ⟨v.release i o, rfl, rfl, hhand.keep hzero⟩
    · exact ⟨(v.release i o).dropSlab i a ((g i).slabSize * pageSize), rfl, rfl,
        hhand.destroy hzero⟩
  next hzero =>
  refine ⟨v.release i o, rfl, rfl, hcore, fun j => ?_⟩
  by_cases hj : j = i
  · subst hj
    exact (h.lists j).touch hin hsame ⟨hroom, fun _ => Nat.pos_of_ne_zero hzero⟩
  · exact hother j hj

end

end Inv

end Kurios.Heap
