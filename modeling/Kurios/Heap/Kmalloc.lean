import Kurios.Heap.Run

/-!
`kmalloc` and `kfree`: twelve caches for the small sizes, page runs for the others.

`kmalloc_contract` is about every history whose large requests do not wrap around
the address space. Neither the rounding in `kmalloc` nor the limit check in
`heap_alloc_pages` looks for that, and without it the contract fails:
`kmalloc(SIZE_MAX)` rounds up to zero pages and returns a pointer to nothing.
-/

namespace Kurios.Heap

open Base Pmm Function Option List Prod

variable {pages : Fin 12 → Option Nat} {i : Fin 12}

/-- `kmalloc_sizes`. -/
def kmallocSizes : Fin 12 → Nat :=
  ![16, 32, 64, 128, 256, 512, 1024, 2048, 4096, 8192, 16384, 32768]

/-- `SLAB_MAX_SIZE`. -/
def slabMaxSize : Nat := 4096

abbrev KernelHeap := HeapState (Fin 12)

/-- One iteration of `slab_init`: the descriptor of a cache takes a heap page.
`none` is the panic. -/
def createKmallocCache (pages : Fin 12 → Option Nat) (s : KernelHeap) (i : Fin 12) :
    Option KernelHeap :=
  let (cache, s) := heapAllocPages s 1 fun _ => pages i
  if cache = 0 then none
  else some (s.modifyCache i fun _ => kmemCacheCreate (kmallocSizes i) 0 false)

/-- `slab_init`. -/
def slabInit (s : KernelHeap) (pages : Fin 12 → Option Nat) : Option KernelHeap :=
  run (createKmallocCache pages) { s with current := kheapStart } (finRange 12)

def findKmallocCache (size : Nat) : Option (Fin 12) :=
  (finRange 12).find? fun i => decide (size ≤ kmallocSizes i)

/-- `kmalloc`: the address, `0` for `NULL`. -/
def kmalloc (s : KernelHeap) (size : Nat) (pages : Nat → Option Nat) : Nat × KernelHeap :=
  if size = 0 then (0, s)
  else if size > slabMaxSize then heapAllocPages s (u64 (size + (pageSize - 1)) / pageSize) pages
  else
    match findKmallocCache size with
    | none => (0, s)
    | some i => kmemCacheAlloc s i pages

/-- `kfree`. A large allocation is found in no cache and stays mapped. -/
def kfree (s : KernelHeap) (ptr : Nat) : KernelHeap :=
  if ptr = 0 then s
  else if ptr < kheapStart ∨ s.current ≤ ptr then s
  else
    match (finRange 12).find? fun i => (findSlabForObj (s.caches i) ptr).isSome with
    | none => s
    | some i => kmemCacheFree s i ptr

/-! ### Histories -/

inductive KmallocCall where
  | kmalloc (size : Nat) (pages : Nat → Option Nat)
  | kfree (ptr size : Nat)
  | write (ptr size lo hi : Nat) (value : Nat → Option Nat)

/-- The heap, and the allocations that are live: address and requested size. -/
structure KmallocHistory where
  state : KernelHeap
  live : List (Nat × Nat)

namespace KmallocHistory

/-- Requests of 1 to 2^64 - 1 bytes, frees of live pointers, and writes of the
owners into what they asked for. -/
def step (h : KmallocHistory) : KmallocCall → Option KmallocHistory
  | .kmalloc size pages =>
    if 1 ≤ size ∧ size < 2 ^ 64 then
      let (ptr, s) := Heap.kmalloc h.state size pages
      some ⟨s, if ptr = 0 then h.live else (ptr, size) :: h.live⟩
    else none
  | .kfree ptr size =>
    if (ptr, size) ∈ h.live then some ⟨Heap.kfree h.state ptr, h.live.erase (ptr, size)⟩ else none
  | .write ptr size lo hi value =>
    if (ptr, size) ∈ h.live ∧ ptr ≤ lo ∧ hi ≤ ptr + size then
      some ⟨h.state.store lo hi value, h.live⟩
    else none

/-- A large request can be rounded up to pages, and the page run ends below 2^64. -/
def Fits (h : KmallocHistory) : KmallocCall → Prop
  | .kmalloc size _ => size ≤ slabMaxSize ∨ (size + (pageSize - 1) < 2 ^ 64 ∧
      h.state.current + (size + (pageSize - 1)) / pageSize * pageSize < 2 ^ 64)
  | _ => True

instance (h : KmallocHistory) (c : KmallocCall) : Decidable (h.Fits c) := by
  cases c <;> unfold Fits <;> infer_instance

/-- The steps of the histories in which no large request wraps. -/
def fittingStep (h : KmallocHistory) (c : KmallocCall) : Option KmallocHistory :=
  if h.Fits c then h.step c else none

end KmallocHistory

/-- What `kmalloc` promises: every live allocation is mapped heap memory, and two of
them are disjoint. -/
structure KmallocContract (h : KmallocHistory) : Prop where
  inside : ∀ p ∈ h.live, kheapStart ≤ p.1 ∧ p.1 + p.2 ≤ kheapEnd
  mapped : ∀ p ∈ h.live, ∀ x, p.1 ≤ x → x < p.1 + p.2 →
    h.state.kmap (x / pageSize * pageSize) ≠ none
  disjoint : h.live.Pairwise fun p q => p.1 + p.2 ≤ q.1 ∨ q.1 + q.2 ≤ p.1

/-! ### Where an allocation lives -/

variable {ι : Type} {g : ι → Geometry} {s : HeapState ι} {v : View ι} {p q : Nat × Nat}

/-- The allocation `p` is part of a live object or of a page run. -/
def Backed (g : ι → Geometry) (v : View ι) (p : Nat × Nat) : Prop :=
  (∃ i, p.1 ∈ v.live i ∧ p.2 ≤ (g i).objSize) ∨ ∃ n, (p.1, n) ∈ v.runs ∧ p.2 ≤ n

namespace Backed

theorem owner_ne_none (hp : Backed g v p) (h : Core g s v) {x}
    (hx : p.1 ≤ x ∧ x < p.1 + p.2) : v.owner x ≠ none := by
  rcases hp with ⟨i, hlive, hsize⟩ | ⟨n, hrun, hsize⟩
  · obtain ⟨a, ha, hobj⟩ := h.live i _ hlive
    rw [h.owns_object ha hobj ⟨hx.1, by omega⟩]
    exact some_ne_none _
  · rw [h.runs _ hrun x hx.1 (by omega)]
    exact some_ne_none _

theorem inside (hp : Backed g v p) (h : Core g s v) (hpos : 1 ≤ p.2) :
    kheapStart ≤ p.1 ∧ p.1 + p.2 ≤ s.current := by
  have hfirst := h.below p.1 (hp.owner_ne_none h ⟨le_rfl, by omega⟩)
  have hlast := h.below (p.1 + p.2 - 1) (hp.owner_ne_none h ⟨by omega, by omega⟩)
  omega

/-- Allocations at different addresses do not overlap. -/
theorem apart (hp : Backed g v p) (hq : Backed g v q) (h : Core g s v) (hpos : 1 ≤ p.2)
    (hpos' : 1 ≤ q.2) (hne : p.1 ≠ q.1) : p.1 + p.2 ≤ q.1 ∨ q.1 + q.2 ≤ p.1 := by
  rcases hp with ⟨i, hlive, hsize⟩ | ⟨n, hrun, hsize⟩
  · rcases hq with ⟨j, hlive', hsize'⟩ | ⟨n', hrun', hsize'⟩
    · have := h.live_apart hlive hlive' fun he => hne (congrArg snd he)
      omega
    · obtain ⟨a, ha, hobj⟩ := h.live i _ hlive
      have := h.object_run_apart ha hobj hrun' (by omega)
      omega
  rcases hq with ⟨j, hlive', hsize'⟩ | ⟨n', hrun', hsize'⟩
  · obtain ⟨a, ha, hobj⟩ := h.live j _ hlive'
    have := h.object_run_apart ha hobj hrun (by omega)
    omega
  · by_contra hover
    have heq := (h.runs _ hrun).eq (h.runs _ hrun') (x := max p.1 q.1) (by omega) (by omega)
    exact hne heq.2

end Backed

/-! ### `slab_init` -/

/-- The geometries of the `kmalloc` caches. -/
def kmallocGeometry (i : Fin 12) : Geometry := (kmemCacheCreate (kmallocSizes i) 0 false).toGeometry

theorem kmallocGeometry_valid (i : Fin 12) : (kmallocGeometry i).Valid := by
  have hobjs : ∀ i : Fin 12, 1 ≤ (kmemCacheCreate (kmallocSizes i) 0 false).objsPerSlab := by
    decide +kernel
  have hsize : ∀ i : Fin 12, kmallocSizes i < 2 ^ 64 := by decide
  exact kmemCacheCreate_valid (hsize i) (.inl rfl) (hobjs i)

/-- One iteration: the bump pointer moves by a page and one cache is new. -/
theorem createKmallocCache_spec {s t} (halign : pageSize ∣ s.current)
    (hrng : kheapStart ≤ s.current ∧ s.current ≤ kheapEnd)
    (hstep : createKmallocCache pages s i = some t) :
    pageSize ∣ t.current ∧ (kheapStart ≤ t.current ∧ t.current ≤ kheapEnd) ∧
      t.caches = update s.caches i (kmemCacheCreate (kmallocSizes i) 0 false) := by
  have hwrap : s.current + 1 * pageSize < 2 ^ 64 := by
    simp only [kheapEnd, pageSize] at hrng ⊢
    omega
  unfold createKmallocCache at hstep
  obtain ⟨kmap, -, hfail | ⟨hok, hend, -⟩⟩ := heapAllocPages_spec (fun _ => pages i) hwrap
  · simp [hfail] at hstep
  have hne : s.current ≠ 0 := by
    simp only [kheapStart] at hrng
    omega
  simp only [hok, if_neg hne, some.injEq] at hstep
  subst hstep
  refine ⟨dvd_add halign (dvd_mul_left _ _), ⟨?_, hend⟩, rfl⟩
  exact hrng.1.trans (Nat.le_add_right _ _)

/-- The loop of `slab_init`: the caches of the list are new afterwards, and those
that were stay so. -/
theorem createKmallocCaches_spec {l s t}
    (halign : pageSize ∣ s.current) (hrng : kheapStart ≤ s.current ∧ s.current ≤ kheapEnd)
    (hrun : run (createKmallocCache pages) s l = some t) :
    pageSize ∣ t.current ∧ (kheapStart ≤ t.current ∧ t.current ≤ kheapEnd) ∧
      ∀ i, i ∈ l ∨ s.caches i = kmemCacheCreate (kmallocSizes i) 0 false →
        t.caches i = kmemCacheCreate (kmallocSizes i) 0 false := by
  induction l generalizing s with
  | nil =>
    cases hrun
    exact ⟨halign, hrng, fun i hi => hi.resolve_left not_mem_nil⟩
  | cons j l ih =>
    obtain ⟨u, hstep, hrest⟩ := run_cons.mp hrun
    obtain ⟨hu, hurange, hcaches⟩ := createKmallocCache_spec halign hrng hstep
    obtain ⟨ht, htrange, hnew⟩ := ih hu hurange hrest
    refine ⟨ht, htrange, fun i hi => hnew i ?_⟩
    by_cases hij : i = j
    · subst hij
      exact .inr (by rw [hcaches, update_self])
    · rw [hcaches, update_of_ne hij]
      exact hi.imp_left fun hmem => (mem_cons.mp hmem).resolve_left hij

/-- After `slab_init` all caches are there, without slabs. -/
theorem slabInit_inv {s t} (hinit : slabInit s pages = some t) :
    Inv kmallocGeometry t (View.empty (Fin 12)) := by
  have hstart : pageSize ∣ kheapStart ∧ kheapStart ≤ kheapEnd := by decide +kernel
  obtain ⟨halign, hrng, hcaches⟩ := createKmallocCaches_spec hstart.1 ⟨le_rfl, hstart.2⟩ hinit
  have hnew : t.caches = fun i => kmemCacheCreate (kmallocSizes i) 0 false := by
    funext i
    exact hcaches i (.inl (mem_finRange i))
  have hinv := Inv.start (fun i => ?_) (fun i => ?_) halign hrng
  · rw [hnew] at hinv
    exact hinv
  · rw [hnew]
    exact kmallocGeometry_valid i
  · rw [hnew]
    rfl

/-! ### One call -/

section Calls

variable {s : KernelHeap} {v : View (Fin 12)} {size : Nat}

theorem findKmallocCache_spec (hsize : size ≤ slabMaxSize) :
    ∃ i, findKmallocCache size = some i ∧ size ≤ kmallocSizes i := by
  have hsome : (findKmallocCache size).isSome := by
    rw [findKmallocCache, find?_isSome]
    exact ⟨8, mem_finRange 8, decide_eq_true hsize⟩
  obtain ⟨i, hi⟩ := isSome_iff_exists.mp hsome
  have hle := find?_some hi
  exact ⟨i, hi, of_decide_eq_true hle⟩

/-- A call of `kmalloc` fails, or returns an allocation that starts where no other
one starts; the others stay. -/
def KmallocSpec (v : View (Fin 12)) (size : Nat) (r : Nat × KernelHeap) : Prop :=
  (r.1 = 0 ∧ Inv kmallocGeometry r.2 v) ∨
    (r.1 ≠ 0 ∧ ∃ v', Inv kmallocGeometry r.2 v' ∧ Backed kmallocGeometry v' (r.1, size) ∧
      ∀ p, 1 ≤ p.2 → Backed kmallocGeometry v p → Backed kmallocGeometry v' p ∧ p.1 ≠ r.1)

section

variable (h : Inv kmallocGeometry s v)
include h

/-- A large request, if it fits. -/
theorem Inv.kmallocLarge {n} (pages : Nat → Option Nat) (hn : size ≤ n * pageSize)
    (hwrap : s.current + n * pageSize < 2 ^ 64) :
    KmallocSpec v size (heapAllocPages s n pages) := by
  rcases h.pages hwrap pages with ⟨hzero, hinv⟩ | ⟨haddr, hinv⟩
  · exact .inl ⟨hzero, hinv⟩
  have hlow := h.range.1
  refine .inr ⟨?_, _, hinv, .inr ⟨n * pageSize, ?_, hn⟩, fun p hpos hp => ⟨?_, ?_⟩⟩
  · simp only [kheapStart] at hlow
    omega
  · rw [haddr]
    exact Finset.mem_insert_self _ _
  · exact hp.imp_right (Exists.imp fun m hm => ⟨Finset.mem_insert_of_mem hm.1, hm.2⟩)
  · have := hp.inside h.toCore hpos
    omega

/-- A request that a cache serves. -/
theorem Inv.kmallocSmall (pages : Nat → Option Nat) (hsize : size ≤ kmallocSizes i) :
    KmallocSpec v size (kmemCacheAlloc s i pages) := by
  rcases h.alloc i pages with ⟨hzero, hinv⟩ | ⟨hne, v', hhanded, hinv⟩
  · exact .inl ⟨hzero, hinv⟩
  have hnew : (kmemCacheAlloc s i pages).1 ∈ v'.live i := by
    rw [hhanded.live, update_self]
    exact Finset.mem_insert_self _ _
  have hgrow : ∀ j o, o ∈ v.live j → o ∈ v'.live j := by
    intro j o ho
    rw [hhanded.live]
    by_cases hj : j = i
    · subst hj
      rw [update_self]
      exact Finset.mem_insert_of_mem ho
    · rwa [update_of_ne hj]
  have hobj : ∀ i, kmallocSizes i ≤ (kmallocGeometry i).objSize := by decide +kernel
  refine .inr ⟨hne, v', hinv, .inl ⟨i, hnew, hsize.trans (hobj i)⟩, ?_⟩
  rintro ⟨o, m⟩ hpos (⟨j, hlive, hle⟩ | ⟨n, hrun, hle⟩)
  · refine ⟨.inl ⟨j, hgrow j o hlive, hle⟩, ?_⟩
    rintro rfl
    have hij : (j, (kmemCacheAlloc s i pages).1) ≠ (i, (kmemCacheAlloc s i pages).1) := by
      intro he
      simp only [mk.injEq, and_true] at he
      exact hhanded.fresh (he ▸ hlive)
    have hapart := hinv.live_apart (hgrow j _ hlive) hnew hij
    have hi := (kmallocGeometry_valid i).size
    omega
  have hrun' : (o, n) ∈ v'.runs := hhanded.runs ▸ hrun
  refine ⟨.inr ⟨n, hrun', hle⟩, ?_⟩
  rintro rfl
  obtain ⟨a, ha, hobj⟩ := hinv.live i _ hnew
  have hapart := hinv.object_run_apart ha hobj hrun' (hpos.trans hle)
  have hi := (kmallocGeometry_valid i).size
  omega

/-- `kmalloc` of any size, if large requests fit. -/
theorem Inv.kmalloc (pages : Nat → Option Nat) (hpos : 1 ≤ size)
    (hfits : size ≤ slabMaxSize ∨ (size + (pageSize - 1) < 2 ^ 64 ∧
      s.current + (size + (pageSize - 1)) / pageSize * pageSize < 2 ^ 64)) :
    KmallocSpec v size (kmalloc s size pages) := by
  unfold Heap.kmalloc
  rw [if_neg (by omega)]
  by_cases hlarge : size > slabMaxSize
  · obtain ⟨hround, hwrap⟩ := hfits.resolve_left (by omega)
    rw [if_pos hlarge, u64_of_lt hround]
    refine h.kmallocLarge pages ?_ hwrap
    simp only [pageSize]
    omega
  rw [if_neg hlarge]
  obtain ⟨i, hfind, hsize⟩ := findKmallocCache_spec (by omega : size ≤ slabMaxSize)
  rw [hfind]
  exact h.kmallocSmall pages hsize

/-- `kfree` of an allocation keeps the others. -/
theorem Inv.kfree {p} (hpos : 1 ≤ p.2) (hp : Backed kmallocGeometry v p) :
    ∃ v', Inv kmallocGeometry (kfree s p.1) v' ∧
      ∀ q, q.1 ≠ p.1 → Backed kmallocGeometry v q → Backed kmallocGeometry v' q := by
  obtain ⟨hlow, hhigh⟩ := hp.inside h.toCore hpos
  have hne : p.1 ≠ 0 := by
    simp only [kheapStart] at hlow
    omega
  unfold Heap.kfree
  rw [if_neg hne, if_neg (by omega)]
  -- A cache in which the pointer is found owns it.
  have hfound : ∀ j, (findSlabForObj (s.caches j) p.1).isSome →
      ∃ a, v.owner p.1 = some (some j, a) := by
    intro j hj
    obtain ⟨a, ha⟩ := isSome_iff_exists.mp hj
    exact ⟨a, (h.find_owner ha).2.2⟩
  rcases hp with ⟨i, hlive, hsize⟩ | ⟨n, hrun, hsize⟩
  · obtain ⟨a, ha, hobj, hfind⟩ := h.find_live hlive
    have hcache : (finRange 12).find? (fun i => (findSlabForObj (s.caches i) p.1).isSome) =
        some i := by
      have hsome : ((finRange 12).find? fun i =>
          (findSlabForObj (s.caches i) p.1).isSome).isSome := by
        rw [find?_isSome]
        exact ⟨i, mem_finRange i, by rw [hfind]; rfl⟩
      obtain ⟨j, hj⟩ := isSome_iff_exists.mp hsome
      have hin := find?_some hj
      obtain ⟨b, howner⟩ := hfound j hin
      rw [h.owns_object ha hobj ⟨le_rfl, by omega⟩] at howner
      simp only [some.injEq, mk.injEq] at howner
      rw [hj, howner.1]
    rw [hcache]
    obtain ⟨v', hview, hruns, hinv⟩ := h.free hlive
    refine ⟨v', hinv, fun q hq hback => ?_⟩
    rcases hback with ⟨j, hlive', hle⟩ | ⟨n, hrun, hle⟩
    · refine .inl ⟨j, ?_, hle⟩
      rw [hview]
      by_cases hj : j = i
      · subst hj
        rw [update_self]
        exact Finset.mem_erase_of_ne_of_mem hq hlive'
      · rwa [update_of_ne hj]
    · exact .inr ⟨n, hruns ▸ hrun, hle⟩
  -- A page run is in no cache; it is leaked.
  have hcache : (finRange 12).find? (fun i => (findSlabForObj (s.caches i) p.1).isSome) =
      none := by
    rw [find?_eq_none]
    intro j _ hj
    obtain ⟨a, howner⟩ := hfound j hj
    rw [h.runs _ hrun p.1 le_rfl (by omega)] at howner
    cases howner
  rw [hcache]
  exact ⟨v, h, fun q _ hq => hq⟩

end

end Calls

/-! ### Every history -/

namespace KmallocHistory

/-- Live allocations start at different addresses and are backed by the view. -/
structure Tracks (h : KmallocHistory) (v : View (Fin 12)) : Prop where
  inv : Inv kmallocGeometry h.state v
  nodup : (h.live.map fst).Nodup
  backed : ∀ p ∈ h.live, 1 ≤ p.2 ∧ Backed kmallocGeometry v p

variable {h h' : KmallocHistory} {v : View (Fin 12)}

theorem Tracks.contract (ht : Tracks h v) : KmallocContract h := by
  have hend := ht.inv.range.2
  constructor
  · intro p hp
    obtain ⟨hpos, hback⟩ := ht.backed p hp
    have := hback.inside ht.inv.toCore hpos
    omega
  · intro p hp x hlo hhi
    obtain ⟨-, hback⟩ := ht.backed p hp
    exact ht.inv.mapped x (hback.owner_ne_none ht.inv.toCore ⟨hlo, hhi⟩)
  have hpairs := pairwise_map.mp ht.nodup
  refine hpairs.imp_of_mem fun {p q} hp hq hne => ?_
  obtain ⟨hpos, hback⟩ := ht.backed p hp
  obtain ⟨hpos', hback'⟩ := ht.backed q hq
  exact hback.apart hback' ht.inv.toCore hpos hpos' hne

/-- One call keeps the invariant. -/
theorem Tracks.step (ht : Tracks h v) {c} (hstep : h.fittingStep c = some h') :
    ∃ v', Tracks h' v' := by
  obtain ⟨hfits, hstep⟩ := ite_none_right_eq_some.mp hstep
  cases c with
  | kmalloc size pages =>
    simp only [KmallocHistory.step] at hstep
    obtain ⟨hsize, hstep⟩ := ite_none_right_eq_some.mp hstep
    have hspec := ht.inv.kmalloc pages hsize.1 hfits
    simp only [some.injEq] at hstep
    subst hstep
    rcases hspec with ⟨hzero, hinv⟩ | ⟨hne, v', hinv, hnew, hold⟩
    · exact ⟨v, hinv, (if_pos hzero).symm ▸ ht.nodup, (if_pos hzero).symm ▸ ht.backed⟩
    refine ⟨v', hinv, ?_, ?_⟩
    · simp only [if_neg hne, map_cons]
      refine nodup_cons.mpr ⟨fun hin => ?_, ht.nodup⟩
      obtain ⟨p, hp, heq⟩ := mem_map.mp hin
      obtain ⟨hpos, hback⟩ := ht.backed p hp
      exact (hold p hpos hback).2 heq
    simp only [if_neg hne]
    refine forall_mem_cons.mpr ⟨⟨hsize.1, hnew⟩, fun p hp => ?_⟩
    obtain ⟨hpos, hback⟩ := ht.backed p hp
    exact ⟨hpos, (hold p hpos hback).1⟩
  | kfree ptr size =>
    obtain ⟨hlive, rfl⟩ := ite_eq_some hstep
    obtain ⟨hpos, hback⟩ := ht.backed _ hlive
    obtain ⟨v', hinv, hother⟩ := ht.inv.kfree hpos hback
    refine ⟨v', hinv, ht.nodup.sublist (erase_sublist.map _), fun q hq => ?_⟩
    obtain ⟨hne, hq⟩ := (ht.nodup.of_map _).mem_erase_iff.mp hq
    obtain ⟨hpos', hback'⟩ := ht.backed q hq
    refine ⟨hpos', hother q (fun he => hne ?_) hback'⟩
    exact inj_on_of_nodup_map ht.nodup hq hlive he
  | write ptr size lo hi value =>
    obtain ⟨hguard, rfl⟩ := ite_eq_some hstep
    obtain ⟨hlive, hlo, hhi⟩ := hguard
    obtain ⟨hpos, hback⟩ := ht.backed _ hlive
    refine ⟨v, ?_, ht.nodup, ht.backed⟩
    rcases hback with ⟨i, hlive, hsize⟩ | ⟨n, hrun, hsize⟩
    · exact ht.inv.store hlive hlo (by omega) value
    · -- Bytes stored inside a page run reach no free list.
      refine ⟨ht.inv.toCore.storeOutside value fun j b x hb hx _ => ?_, ht.inv.lists⟩
      have hobj := (ht.inv.valid j).size
      have := ht.inv.object_run_apart hb hx hrun (by omega)
      omega

end KmallocHistory

/-- **The `kmalloc` contract.** From `slab_init` on, and as long as no large request
wraps around the address space, every live allocation is mapped memory inside the
kernel heap, of at least the requested size, and disjoint from the others. -/
theorem kmalloc_contract {s₀ s : KernelHeap} {frames : Fin 12 → Option Nat}
    (hinit : slabInit s₀ frames = some s) {calls : List KmallocCall} {h : KmallocHistory}
    (hrun : run KmallocHistory.fittingStep ⟨s, []⟩ calls = some h) : KmallocContract h := by
  have hstart : KmallocHistory.Tracks ⟨s, []⟩ (View.empty (Fin 12)) :=
    ⟨slabInit_inv hinit, nodup_nil, fun p hp => absurd hp not_mem_nil⟩
  obtain ⟨v, ht⟩ := run_inv (fun h => ∃ v, KmallocHistory.Tracks h v)
    (fun _ _ _ ⟨_, ht⟩ hstep => ht.step hstep) ⟨_, hstart⟩ hrun
  exact ht.contract

/-- The kernel heap after `slab_init`, with a frame for every page. -/
def freshHeap : Option KernelHeap :=
  slabInit ⟨0, fun _ => none, fun _ => none, fun _ => ⟨none, 0, 0, 0⟩,
    fun _ => ⟨⟨0, 0, 0, 0, false⟩, [], [], []⟩⟩ fun i => some ((i.val + 1) * pageSize)

/-- A small and a large request; the small one is freed and its object handed out
again. -/
def mixedRequests : Option KmallocHistory :=
  freshHeap.bind fun s => run KmallocHistory.fittingStep ⟨s, []⟩
    [.kmalloc 4000 fun i => some (i + 32), .kmalloc 10000 fun i => some (i + 64),
      .kfree (kheapStart + 57392) 4000, .kmalloc 4096 fun _ => none]

theorem kmalloc_contract_mixedRequests : ∃ h, mixedRequests = some h ∧
      h.live = [(kheapStart + 57392, 4096), (kheapStart + 65536, 10000)] ∧ KmallocContract h := by
  have hlive : mixedRequests.map KmallocHistory.live =
      some [(kheapStart + 57392, 4096), (kheapStart + 65536, 10000)] := by decide +kernel
  obtain ⟨h, hmixed, hlive⟩ := map_eq_some_iff.mp hlive
  obtain ⟨s, hinit, hrun⟩ := bind_eq_some_iff.mp hmixed
  exact ⟨h, hmixed, hlive, kmalloc_contract hinit hrun⟩

/-- `kmalloc(SIZE_MAX)` right after `slab_init`. -/
def hugeRequest : Option KmallocHistory :=
  freshHeap.bind fun s => run KmallocHistory.step ⟨s, []⟩ [.kmalloc (2 ^ 64 - 1) fun _ => none]

/-- The request succeeds without a single page: the pointer is the bump pointer, and
nothing is mapped there. -/
theorem hugeRequest_not_contract :
    ∃ h, hugeRequest = some h ∧ h.live = [(kheapStart + 12 * pageSize, 2 ^ 64 - 1)] ∧
      h.state.kmap (kheapStart + 12 * pageSize) = none ∧ ¬ KmallocContract h := by
  apply exists_and_of₂ (by decide +kernel)
  intro h _ hlive _ hcontract
  have hinside := hcontract.inside (kheapStart + 12 * pageSize, 2 ^ 64 - 1) (by simp [hlive])
  simp only [kheapStart, kheapEnd, pageSize] at hinside
  omega

end Kurios.Heap
