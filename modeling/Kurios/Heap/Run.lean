import Kurios.Heap.Cache

/-!
Histories of the slab allocator.

Any number of caches share the heap. A history is a sequence of `kmem_cache_alloc`,
`kmem_cache_free` of live objects, writes of the owners into their live objects
(where the free lists run once an object is free), and page runs that other parts
of the kernel take from the heap. `slab_invariant` says what holds after each of
them.
-/

namespace Kurios.Heap

open Base Pmm Function Option List

variable {ι : Type} [DecidableEq ι] {s : HeapState ι} {a : Nat} {i : ι}

inductive HeapCall (ι : Type) where
  | alloc (i : ι) (pages : Nat → Option Nat)
  | free (i : ι) (obj : Nat)
  | write (i : ι) (obj lo hi : Nat) (value : Nat → Option Nat)
  | pages (count : Nat) (pages : Nat → Option Nat)

/-- The heap, and the objects that were handed out and not freed since, with their
caches. -/
structure HeapHistory (ι : Type) where
  state : HeapState ι
  live : List (ι × Nat)

namespace HeapHistory

def step (h : HeapHistory ι) : HeapCall ι → Option (HeapHistory ι)
  | .alloc i pages =>
    let (obj, s) := kmemCacheAlloc h.state i pages
    some ⟨s, if obj = 0 then h.live else (i, obj) :: h.live⟩
  | .free i obj =>
    if (i, obj) ∈ h.live then some ⟨kmemCacheFree h.state i obj, h.live.erase (i, obj)⟩ else none
  | .write i obj lo hi value =>
    if (i, obj) ∈ h.live ∧ obj ≤ lo ∧ hi ≤ obj + (h.state.caches i).objSize then
      some ⟨h.state.store lo hi value, h.live⟩
    else none
  | .pages count pages =>
    if h.state.current + count * pageSize < 2 ^ 64 then
      some ⟨(heapAllocPages h.state count pages).2, h.live⟩
    else none

/-- The live objects of the history are those of the view. -/
structure Tracks (g : ι → Geometry) (h : HeapHistory ι) (v : View ι) : Prop where
  inv : Inv g h.state v
  nodup : h.live.Nodup
  live : ∀ i o, (i, o) ∈ h.live ↔ o ∈ v.live i

variable {g : ι → Geometry} {h h' : HeapHistory ι} {v : View ι}

/-- One call keeps the invariant. -/
theorem Tracks.step (ht : Tracks g h v) {c} (hstep : h.step c = some h') :
    ∃ v', Tracks g h' v' := by
  cases c with
  | alloc i pages =>
    have hspec := ht.inv.alloc i pages
    simp only [HeapHistory.step, some.injEq] at hstep
    subst hstep
    rcases hspec with ⟨hzero, hinv⟩ | ⟨hne, v', hhanded, hinv⟩
    · exact ⟨v, hinv, (if_pos hzero).symm ▸ ht.nodup, (if_pos hzero).symm ▸ ht.live⟩
    refine ⟨v', hinv, ?_, ?_⟩
    · simp only [if_neg hne]
      exact nodup_cons.mpr ⟨fun hin => hhanded.fresh ((ht.live _ _).mp hin), ht.nodup⟩
    intro j o
    simp only [if_neg hne]
    rw [mem_cons, ht.live, hhanded.live]
    by_cases hj : j = i
    · subst hj
      simp
    · simp [hj]
  | free i obj =>
    obtain ⟨hlive, rfl⟩ := ite_eq_some hstep
    obtain ⟨v', hview, -, hinv⟩ := ht.inv.free ((ht.live i obj).mp hlive)
    refine ⟨v', hinv, ht.nodup.erase _, fun j o => ?_⟩
    rw [ht.nodup.mem_erase_iff, ht.live, hview]
    by_cases hj : j = i
    · subst hj
      simp
    · simp [hj]
  | write i obj lo hi value =>
    obtain ⟨hguard, rfl⟩ := ite_eq_some hstep
    obtain ⟨hlive, hlo, hhi⟩ := hguard
    have hsize : (h.state.caches i).objSize = (g i).objSize :=
      congrArg Geometry.objSize (ht.inv.geometry i)
    exact ⟨v, ht.inv.store ((ht.live i obj).mp hlive) hlo (hsize ▸ hhi) value, ht.nodup, ht.live⟩
  | pages count pages =>
    obtain ⟨hwrap, rfl⟩ := ite_eq_some hstep
    rcases ht.inv.pages hwrap pages with ⟨-, hinv⟩ | ⟨-, hinv⟩
    · exact ⟨v, hinv, ht.nodup, ht.live⟩
    · exact ⟨_, hinv, ht.nodup, ht.live⟩

end HeapHistory

/-! ### The invariant -/

/-- The slabs of a cache. -/
def Cache.slabs (c : Cache) : List Nat := c.slabsFull ++ c.slabsPartial ++ c.slabsEmpty

/-- The object at `o` lies entirely in the slab at `a`, after its header. -/
def Cache.Inside (c : Cache) (o a : Nat) : Prop :=
  a + slabHeaderSize ≤ o ∧ o + c.objSize ≤ a + c.slabSize * pageSize
deriving Decidable

/-- The live objects of cache `i` in its slab at `a`. -/
def HeapHistory.liveIn (h : HeapHistory ι) (i : ι) (a : Nat) : List (ι × Nat) :=
  h.live.filter fun p => decide (p.1 = i ∧ (h.state.caches i).Inside p.2 a)

/-- What the slab allocator promises about its live objects. -/
structure SlabInvariant (h : HeapHistory ι) : Prop where
  aligned : ∀ p ∈ h.live, (h.state.caches p.1).align ∣ p.2
  disjoint : h.live.Pairwise fun p q =>
    p.2 + (h.state.caches p.1).objSize ≤ q.2 ∨ q.2 + (h.state.caches q.1).objSize ≤ p.2
  inside : ∀ p ∈ h.live, ∃! a, a ∈ (h.state.caches p.1).slabs ∧ (h.state.caches p.1).Inside p.2 a
  counted : ∀ i, ∀ a ∈ (h.state.caches i).slabs,
    ∃ free, Chain h.state.mem (h.state.slabs a).freeList free ∧
      (h.liveIn i a).length + free.length = (h.state.caches i).objsPerSlab

namespace HeapHistory

variable {g : ι → Geometry} {h h' : HeapHistory ι} {v : View ι}

namespace Tracks

/-- In a slab of the cache the live objects are the live ones among its objects. -/
theorem mem_liveIn (ht : Tracks g h v) (ha : a ∈ v.slabs i) (p : ι × Nat) :
    p ∈ h.liveIn i a ↔ p.1 = i ∧ p.2 ∈ (g i).objects a ∩ v.live i := by
  obtain ⟨j, o⟩ := p
  have hgeo := ht.inv.geometry i
  have hsize := congrArg Geometry.objSize hgeo
  have hslab := congrArg Geometry.slabSize hgeo
  simp only [liveIn, mem_filter, decide_eq_true_eq, Cache.Inside, hsize, hslab,
    Finset.mem_inter, ht.live]
  constructor
  · rintro ⟨hlive, rfl, hin⟩
    refine ⟨rfl, ?_, hlive⟩
    -- The byte at `o` belongs to the slab of the object and to the slab at `a`.
    obtain ⟨b, hb, hob⟩ := ht.inv.live j o hlive
    have hpos := (ht.inv.valid j).size
    have heq := ht.inv.owns j a ha o (by omega) (by omega)
    rw [ht.inv.owns_object hb hob ⟨le_rfl, by omega⟩, some.injEq, Prod.mk.injEq] at heq
    exact heq.2 ▸ hob
  · rintro ⟨rfl, hobj, hlive⟩
    exact ⟨hlive, rfl, (ht.inv.valid j).object_range hobj⟩

theorem length_liveIn (ht : Tracks g h v) (ha : a ∈ v.slabs i) :
    (h.liveIn i a).length = ((g i).objects a ∩ v.live i).card := by
  have hnd : (h.liveIn i a).Nodup := ht.nodup.filter _
  have himage : (h.liveIn i a).toFinset = ((g i).objects a ∩ v.live i).image fun o => (i, o) := by
    ext p
    rw [List.mem_toFinset, ht.mem_liveIn ha, Finset.mem_image]
    constructor
    · rintro ⟨rfl, hp⟩
      exact ⟨p.2, hp, rfl⟩
    · rintro ⟨o, ho, rfl⟩
      exact ⟨rfl, ho⟩
  rw [← toFinset_card_of_nodup hnd, himage,
    Finset.card_image_of_injective _ (Prod.mk_right_injective i)]

theorem slabInvariant (ht : Tracks g h v) : SlabInvariant h := by
  have hgeo := ht.inv.geometry
  have hmem : ∀ i a, a ∈ (h.state.caches i).slabs ↔ a ∈ v.slabs i := fun i => (ht.inv.lists i).mem
  have halign : ∀ i, (h.state.caches i).align = (g i).align := fun i =>
    congrArg Geometry.align (hgeo i)
  have hsize : ∀ i, (h.state.caches i).objSize = (g i).objSize := fun i =>
    congrArg Geometry.objSize (hgeo i)
  have hslab : ∀ i, (h.state.caches i).slabSize = (g i).slabSize := fun i =>
    congrArg Geometry.slabSize (hgeo i)
  have hobjs : ∀ i, (h.state.caches i).objsPerSlab = (g i).objsPerSlab := fun i =>
    congrArg Geometry.objsPerSlab (hgeo i)
  constructor
  · rintro ⟨i, o⟩ hp
    obtain ⟨a, ha, hobj⟩ := ht.inv.live i o ((ht.live i o).mp hp)
    rw [halign]
    exact (ht.inv.valid i).object_aligned (ht.inv.slab i a ha).aligned hobj
  · refine ht.nodup.imp_of_mem ?_
    rintro ⟨i, o⟩ ⟨j, o'⟩ hp hq hne
    simp only [hsize]
    exact ht.inv.live_apart ((ht.live i o).mp hp) ((ht.live j o').mp hq) hne
  · rintro ⟨i, o⟩ hp
    obtain ⟨a, ha, hobj⟩ := ht.inv.live i o ((ht.live i o).mp hp)
    simp only [hmem, Cache.Inside, hsize, hslab]
    refine ⟨a, ⟨ha, (ht.inv.valid i).object_range hobj⟩, ?_⟩
    rintro b ⟨hb, hin⟩
    have hpos := (ht.inv.valid i).size
    have heq := ht.inv.owns i b hb o (by omega) (by omega)
    rw [ht.inv.owns_object ha hobj ⟨le_rfl, by omega⟩, some.injEq, Prod.mk.injEq] at heq
    exact heq.2.symm
  intro i a ha
  have ha := (hmem i a).mp ha
  obtain ⟨free, hchain, hnd, hfree⟩ := (ht.inv.slab i a ha).free
  refine ⟨free, hchain, ?_⟩
  rw [ht.length_liveIn ha, hobjs]
  exact SlabOk.card_add_length (ht.inv.valid i) hnd hfree

end Tracks

end HeapHistory

/-! ### The discipline of the lists -/

/-- Every slab is on one list, which says how many of its objects are live, and a slab is
created only when there is no room in the others. -/
structure ListDiscipline (h : HeapHistory ι) : Prop where
  once : ∀ i, (h.state.caches i).slabs.Nodup
  listed : ∀ p ∈ h.live, ∃ a ∈ (h.state.caches p.1).slabs, (h.state.caches p.1).Inside p.2 a
  full : ∀ i, ∀ a ∈ (h.state.caches i).slabs, a ∈ (h.state.caches i).slabsFull ↔
    (h.liveIn i a).length = (h.state.caches i).objsPerSlab
  empty : ∀ i, ∀ a ∈ (h.state.caches i).slabs, a ∈ (h.state.caches i).slabsEmpty ↔ h.liveIn i a = []
  grows : ∀ i pages a, a ∈ ((kmemCacheAlloc h.state i pages).2.caches i).slabs →
    a ∉ (h.state.caches i).slabs →
    ∀ b ∈ (h.state.caches i).slabs, (h.liveIn i b).length = (h.state.caches i).objsPerSlab

omit [DecidableEq ι] in
theorem slabAllocObj_caches (s : HeapState ι) (slab : Nat) :
    (slabAllocObj s slab).2.caches = s.caches := by
  unfold slabAllocObj
  split <;> rfl

/-- A slab that appears is a new one. -/
theorem no_room_of_new {pages}
    (ha : a ∈ ((kmemCacheAlloc s i pages).2.caches i).slabs) (hold : a ∉ (s.caches i).slabs) :
    (s.caches i).slabsPartial = [] ∧ (s.caches i).slabsEmpty = [] := by
  have hsame : (kmemCacheAlloc s i pages).2.caches = (takeObject s i pages).2.caches := by
    unfold kmemCacheAlloc
    simp only
    split <;> rfl
  rw [hsame, takeObject] at ha
  simp only [Cache.slabs, mem_append] at hold
  split at ha
  case h_1 slab rest hpart =>
    simp only [allocPartial] at ha
    split at ha
    · simp only [HeapState.modifyCache, update_self, slabAllocObj_caches, Cache.slabs, mem_append,
        mem_cons] at ha
      grind
    · simp only [slabAllocObj_caches, Cache.slabs, mem_append] at ha
      exact absurd ha hold
  case h_2 hpart =>
  split at ha
  case h_1 slab rest hemp =>
    simp only [allocEmpty, placeSlab] at ha
    split at ha <;> simp only [HeapState.modifyCache, update_self, slabAllocObj_caches,
      Cache.slabs, mem_append, mem_cons] at ha <;> grind
  case h_2 hemp => exact ⟨hpart, hemp⟩

variable {h : HeapHistory ι}

/-- With room for two objects the counter of a slab tells the three lists apart. -/
theorem HeapHistory.Tracks.list_iff {g v} (ht : Tracks g h v)
    (hobjs : 2 ≤ (h.state.caches i).objsPerSlab) (ha : a ∈ (h.state.caches i).slabs) :
    (a ∈ (h.state.caches i).slabsFull ↔ (h.liveIn i a).length = (h.state.caches i).objsPerSlab) ∧
    (a ∈ (h.state.caches i).slabsEmpty ↔ h.liveIn i a = []) := by
  have hlists := ht.inv.lists i
  have hav : a ∈ v.slabs i := (hlists.mem a).mp ha
  have hslab := ht.inv.slab i a hav
  have hused := hslab.inUse.trans (ht.length_liveIn hav).symm
  have htotal : (h.state.slabs a).total = (h.state.caches i).objsPerSlab := by
    rw [hslab.total, ht.inv.geometry i]
  have hfull := hlists.full a
  have hroom : a ∈ (h.state.caches i).slabsPartial → _ ∧ (_ → _) := hlists.room a
  have hunu := hlists.unused a
  rcases hlists.mem_cases hav with hin | hin | hin <;> grind

/-! ### Every history -/

/-- Nothing is owned and nothing is live. -/
def View.empty (ι : Type) : View ι := ⟨fun _ => none, fun _ => ∅, fun _ => ∅, ∅⟩

omit [DecidableEq ι] in
/-- A heap whose caches have no slabs yet. -/
theorem Inv.start (hval : ∀ i, (s.caches i).Valid) (hslabs : ∀ i, (s.caches i).slabs = [])
    (halign : pageSize ∣ s.current) (hrng : kheapStart ≤ s.current ∧ s.current ≤ kheapEnd) :
    Inv (fun i => (s.caches i).toGeometry) s (View.empty ι) where
  geometry _ := rfl
  valid := hval
  aligned := halign
  range := hrng
  below x hx := absurd rfl hx
  mapped x hx := absurd rfl hx
  owns i a ha := absurd ha (Finset.notMem_empty a)
  runs r hr := absurd hr (Finset.notMem_empty r)
  slab i a ha := absurd ha (Finset.notMem_empty a)
  live i o ho := absurd ho (Finset.notMem_empty o)
  lists i := by
    have hnil := hslabs i
    simp only [Cache.slabs, append_eq_nil_iff] at hnil
    obtain ⟨⟨hfull, hpart⟩, hemp⟩ := hnil
    exact ⟨by simp [hfull, hpart, hemp], by simp [hfull, hpart, hemp, View.empty],
      by simp [hfull], by simp [hpart], by simp [hemp]⟩

/-- Every cache was just made by `kmem_cache_create`, and a slab holds at least `n` objects. -/
structure Created (n : Nat) (s : HeapState ι) : Prop where
  caches : ∀ i, ∃ size align zero, s.caches i = kmemCacheCreate size align zero ∧ size < 2 ^ 64 ∧
    (align = 0 ∨ align ∣ pageSize) ∧ n ≤ (s.caches i).objsPerSlab
  aligned : pageSize ∣ s.current
  range : kheapStart ≤ s.current ∧ s.current ≤ kheapEnd

theorem Created.tracks {n} (hs : Created n s) (hn : 1 ≤ n) {calls}
    (hrun : run HeapHistory.step ⟨s, []⟩ calls = some h) :
    ∃ v, HeapHistory.Tracks (fun i => (s.caches i).toGeometry) h v := by
  have hstart : HeapHistory.Tracks (fun i => (s.caches i).toGeometry) ⟨s, []⟩ (View.empty ι) := by
    refine ⟨Inv.start (fun i => ?_) (fun i => ?_) hs.aligned hs.range, nodup_nil, ?_⟩
    · obtain ⟨size, align, zero, heq, hsize, halign, hobjs⟩ := hs.caches i
      rw [heq] at hobjs ⊢
      refine kmemCacheCreate_valid hsize (halign.imp_right fun hdvd => ?_) (hn.trans hobjs)
      exact (Nat.dvd_prime_pow Nat.prime_two).mp hdvd
    · obtain ⟨size, align, zero, heq, -⟩ := hs.caches i
      rw [heq]
      rfl
    · simp [View.empty]
  exact run_inv (fun h => ∃ v, HeapHistory.Tracks _ h v) (fun _ _ _ ⟨_, ht⟩ hstep => ht.step hstep)
    ⟨_, hstart⟩ hrun

/-- **Slab object disjointness.** Take a heap in which every cache was just made by
`kmem_cache_create`, with any sizes and any alignments that divide the page size,
such that a slab holds at least one object. After every history the live objects
are aligned and disjoint, each lies in one slab of its cache after the header, and
in each slab the live objects and the free list make up all objects. -/
theorem slab_invariant (size align : ι → Nat) (zero : ι → Bool) (hsize : ∀ i, size i < 2 ^ 64)
    (halign : ∀ i, align i = 0 ∨ align i ∣ pageSize)
    (hobjs : ∀ i, 1 ≤ (kmemCacheCreate (size i) (align i) (zero i)).objsPerSlab) {s : HeapState ι}
    (hcaches : ∀ i, s.caches i = kmemCacheCreate (size i) (align i) (zero i))
    (haligned : pageSize ∣ s.current) (hrange : kheapStart ≤ s.current ∧ s.current ≤ kheapEnd)
    {calls : List (HeapCall ι)} {h : HeapHistory ι}
    (hrun : run HeapHistory.step ⟨s, []⟩ calls = some h) : (∀ i, (h.state.caches i).toGeometry =
        (kmemCacheCreate (size i) (align i) (zero i)).toGeometry) ∧ SlabInvariant h := by
  have hs : Created 1 s :=
    ⟨fun i => ⟨_, _, _, hcaches i, hsize i, halign i, hcaches i ▸ hobjs i⟩, haligned, hrange⟩
  obtain ⟨v, ht⟩ := hs.tracks le_rfl hrun
  refine ⟨fun i => ?_, ht.slabInvariant⟩
  rw [ht.inv.geometry i, hcaches i]

/-- Objects of 2000 bytes on page boundaries, three of which fit in a slab of four
pages. The first one is freed and handed out again after a write into the second. -/
def pageObjects : Option (HeapHistory Unit) :=
  run HeapHistory.step
    ⟨⟨kheapStart, fun _ => none, fun _ => none, fun _ => ⟨none, 0, 0, 0⟩,
      fun _ => kmemCacheCreate 2000 4096 true⟩, []⟩
    [.alloc () some, .alloc () some, .pages 1 some, .free () (kheapStart + 3 * pageSize),
      .write () (kheapStart + 2 * pageSize) (kheapStart + 2 * pageSize)
        (kheapStart + 3 * pageSize) (fun _ => some 1), .alloc () some]

theorem slab_invariant_pageObjects : ∃ h, pageObjects = some h ∧
      h.live = [((), kheapStart + 3 * pageSize), ((), kheapStart + 2 * pageSize)] ∧
      SlabInvariant h := by
  have hlive : pageObjects.map HeapHistory.live =
      some [((), kheapStart + 3 * pageSize), ((), kheapStart + 2 * pageSize)] := by decide +kernel
  obtain ⟨h, hrun, hlive⟩ := map_eq_some_iff.mp hlive
  refine ⟨h, hrun, hlive, (slab_invariant (fun _ => 2000) (fun _ => 4096) (fun _ => true)
    ?_ ?_ ?_ ?_ ?_ ?_ hrun).2⟩
  · exact fun _ => by decide
  · exact fun _ => .inr (by decide)
  · exact fun _ => by decide +kernel
  · exact fun _ => rfl
  · decide +kernel
  · decide +kernel

/-- **Slab list discipline**, for caches of which a slab holds at least two objects. -/
theorem slab_list_discipline {s : HeapState ι} (hs : Created 2 s) {calls : List (HeapCall ι)}
    {h : HeapHistory ι} (hrun : run HeapHistory.step ⟨s, []⟩ calls = some h) :
    ListDiscipline h := by
  obtain ⟨v, ht⟩ := hs.tracks one_le_two hrun
  have hobjs : ∀ i, 2 ≤ (h.state.caches i).objsPerSlab := by
    intro i
    obtain ⟨_, _, _, -, -, -, hobjs⟩ := hs.caches i
    rwa [ht.inv.geometry i]
  refine ⟨fun i => (ht.inv.lists i).nodup, fun p hp => (ht.slabInvariant.inside p hp).exists,
    fun i a ha => (ht.list_iff (hobjs i) ha).1, fun i a ha => (ht.list_iff (hobjs i) ha).2,
    fun i pages a ha hold b hb => ?_⟩
  obtain ⟨hpart, hempty⟩ := no_room_of_new ha hold
  refine (ht.list_iff (hobjs i) hb).1.mp ?_
  simpa [Cache.slabs, hpart, hempty] using hb

theorem slab_list_discipline_pageObjects : ∃ h, pageObjects = some h ∧ ListDiscipline h := by
  have hsome : pageObjects.isSome := by decide +kernel
  obtain ⟨h, hrun⟩ := isSome_iff_exists.mp hsome
  refine ⟨h, hrun, slab_list_discipline ⟨fun () => ⟨2000, 4096, true, rfl, ?_⟩, ?_, ?_⟩ hrun⟩ <;>
    decide +kernel

/-- One object of 40000 bytes fits in a slab: it is handed out and freed again. -/
def oneObject : Option (HeapHistory Unit) :=
  run HeapHistory.step
    ⟨⟨kheapStart, fun _ => none, fun _ => none, fun _ => ⟨none, 0, 0, 0⟩,
      fun _ => kmemCacheCreate 40000 0 false⟩, []⟩
    [.alloc () some, .free () (kheapStart + slabHeaderSize)]

/-- The slab with nothing in it is on the partial list. -/
theorem unused_slab_partial : oneObject.map (fun h => (h.live, (h.state.caches ()).slabsPartial,
      (h.state.caches ()).slabsEmpty)) = some ([], [kheapStart], []) := by
  decide +kernel

end Kurios.Heap
