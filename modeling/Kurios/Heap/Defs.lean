import Kurios.Pmm.Defs

/-!
The kernel heap of `kernel/mm/slab.c`: page runs handed out by a bump pointer, slab
caches of fixed-size objects on top of them, and `kmalloc`.

* `kmap` is the part of the kernel page tables the heap writes: the frame mapped at
  a page address. Whether `alloc_page` and `vmm_map_page` succeed in the `i`-th
  iteration of a `heap_alloc_pages` call is an argument, `pages i`: the frame, or
  `none` when one of the two fails.
* `mem` is the word at an address, where `slab_obj_t.next` is kept while the object
  is free. Slab headers are records of their own; that no object overlaps one is a
  theorem.
* The three slab lists of a cache are lists of slab addresses. The statistics
  counters, which only the dump functions read, are left out.
* `ι` names the caches.
-/

namespace Kurios.Heap

open Base Pmm Function

/-- `KHEAP_START` and `KHEAP_END`. -/
def kheapStart : Nat := 0xFFFFFFFF88000000
def kheapEnd : Nat := 0xFFFFFFFFC0000000

/-- `slab_t`, without its list links. -/
structure Slab where
  freeList : Option Nat
  inUse : Nat
  total : Nat
  objects : Nat
deriving DecidableEq, Repr

/-- `sizeof(slab_t)`. -/
def slabHeaderSize : Nat := 48

/-- What `kmem_cache_create` decides once and for all: `slabSize` is in pages and
`zero` is `flags & SLAB_ZERO`. -/
structure Geometry where
  objSize : Nat
  align : Nat
  slabSize : Nat
  objsPerSlab : Nat
  zero : Bool
deriving DecidableEq, Repr

/-- `kmem_cache_t`. -/
structure Cache extends Geometry where
  slabsFull : List Nat := []
  slabsPartial : List Nat := []
  slabsEmpty : List Nat := []
deriving DecidableEq, Repr

structure HeapState (ι : Type) where
  current : Nat
  kmap : Nat → Option Nat
  mem : Nat → Option Nat
  slabs : Nat → Slab
  caches : ι → Cache

variable {ι : Type}

/-! ### Pages -/

/-- `vmm_unmap_page` of `count` pages from `virt` on. -/
def unmapPages (virt count : Nat) (kmap : Nat → Option Nat) : Nat → Option Nat :=
  forRange 0 count (fun i k => update k (u64 (virt + i * pageSize)) none) kmap

/-- The page loop of `heap_alloc_pages`. On a failure the pages mapped so far are
unmapped again. -/
def mapPages (virt : Nat) (pages : Nat → Option Nat) :
    (remaining i : Nat) → (Nat → Option Nat) → Bool × (Nat → Option Nat)
  | 0, _, kmap => (true, kmap)
  | n + 1, i, kmap =>
    match pages i with
    | none => (false, unmapPages virt i kmap)
    | some frame =>
      mapPages virt pages n (i + 1) (update kmap (u64 (virt + i * pageSize)) (some frame))

variable (s : HeapState ι)

/-- `heap_alloc_pages`: the address of the run, `0` for `NULL`. -/
def heapAllocPages (count : Nat) (pages : Nat → Option Nat) : Nat × HeapState ι :=
  let stop := u64 (s.current + u64 (count * pageSize))
  if stop > kheapEnd then (0, s) else
  match mapPages s.current pages count 0 s.kmap with
  | (false, kmap) => (0, { s with kmap := kmap })
  | (true, kmap) => (s.current, { s with kmap := kmap, current := stop })

/-- `heap_free_pages`; the address range is not reused. -/
def heapFreePages (ptr count : Nat) : HeapState ι :=
  { s with kmap := unmapPages ptr count s.kmap }

/-! ### Caches -/

def calcObjsPerSlab (objSize slabPages : Nat) : Nat :=
  u64 (slabPages * pageSize - slabHeaderSize) / objSize % 2 ^ 32

/-- `while (objs_per_slab < 2 && slab_size < 16) slab_size *= 2`; from one page on
four iterations reach 16. -/
def growSlab (objSize : Nat) : (fuel slabSize : Nat) → Nat
  | 0, slabSize => slabSize
  | n + 1, slabSize =>
    if calcObjsPerSlab objSize slabSize < 2 ∧ slabSize < 16 then growSlab objSize n (slabSize * 2)
    else slabSize

/-- The descriptor `kmem_cache_create` fills in. -/
def kmemCacheCreate (size align : Nat) (zero : Bool) : Cache :=
  let size := if size < 16 then 16 else size
  let align := if align = 0 then (if 8 < size then 16 else 8) else align
  let size := alignUp size align
  let slabSize := growSlab size 4 (if size ≤ 256 then 1 else if size ≤ 1024 then 2 else 4)
  { objSize := size, align := align, slabSize := slabSize,
    objsPerSlab := calcObjsPerSlab size slabSize, zero := zero }

namespace HeapState

def setWord (addr : Nat) (value : Option Nat) : HeapState ι :=
  { s with mem := update s.mem addr value }

def modifySlab (slab : Nat) (f : Slab → Slab) : HeapState ι :=
  { s with slabs := update s.slabs slab (f (s.slabs slab)) }

def modifyCache [DecidableEq ι] (s : HeapState ι) (i : ι) (f : Cache → Cache) : HeapState ι :=
  { s with caches := update s.caches i (f (s.caches i)) }

/-- Bytes are stored in `[lo, hi)`: any word that reaches into the range reads
`value` afterwards. -/
def store (lo hi : Nat) (value : Nat → Option Nat) : HeapState ι :=
  { s with mem := fun a => if a + 8 ≤ lo ∨ hi ≤ a then s.mem a else value a }

end HeapState

/-! ### Slabs -/

/-- The loop of `slab_create` that chains the objects. -/
def chainObjects (slab objSize : Nat) : HeapState ι :=
  forRange 0 (s.slabs slab).total (fun i t =>
    let obj := u64 ((s.slabs slab).objects + i * objSize)
    (t.setWord obj (t.slabs slab).freeList).modifySlab slab fun h =>
      { h with freeList := some obj }) s

/-- `slab_create`: the address of the slab, `0` for `NULL`. -/
def slabCreate (i : ι) (pages : Nat → Option Nat) : Nat × HeapState ι :=
  let cache := s.caches i
  let (mem, s) := heapAllocPages s cache.slabSize pages
  if mem = 0 then (0, s) else
  let objStart := alignUp (u64 (mem + slabHeaderSize)) cache.align
  let s := s.modifySlab mem fun _ =>
    { freeList := none, inUse := 0, total := cache.objsPerSlab, objects := objStart }
  (mem, chainObjects s mem cache.objSize)

/-- `slab_alloc_obj`: the object, `0` for `NULL`. -/
def slabAllocObj (slab : Nat) : Nat × HeapState ι :=
  match (s.slabs slab).freeList with
  | none => (0, s)
  | some obj => (obj, s.modifySlab slab fun h =>
    { h with freeList := s.mem obj, inUse := incr32 h.inUse })

def slabFreeObj (slab obj : Nat) : HeapState ι :=
  (s.setWord obj (s.slabs slab).freeList).modifySlab slab fun h =>
    { h with freeList := some obj, inUse := decr32 h.inUse }

/-- `find_slab_for_obj`: the partial slabs first, then the full ones. -/
def findSlabForObj (cache : Cache) (obj : Nat) : Option Nat :=
  let inSlab := fun slab => decide (slab ≤ obj ∧ obj < u64 (slab + cache.slabSize * pageSize))
  (cache.slabsPartial.find? inSlab).or (cache.slabsFull.find? inSlab)

/-! ### Objects -/

variable [DecidableEq ι]

section

variable (i : ι)

/-- A slab that is on no list joins the full or the partial slabs. -/
def placeSlab (slab : Nat) : HeapState ι :=
  if (s.slabs slab).inUse = (s.slabs slab).total then
    s.modifyCache i fun c => { c with slabsFull := slab :: c.slabsFull }
  else s.modifyCache i fun c => { c with slabsPartial := slab :: c.slabsPartial }

/-- `kmem_cache_alloc` with a partial slab: it moves when it is full afterwards. -/
def allocPartial (slab : Nat) : Nat × HeapState ι :=
  let (obj, s) := slabAllocObj s slab
  if (s.slabs slab).inUse = (s.slabs slab).total then
    (obj, s.modifyCache i fun c =>
      { c with slabsPartial := c.slabsPartial.erase slab, slabsFull := slab :: c.slabsFull })
  else (obj, s)

/-- `kmem_cache_alloc` with no partial but an empty slab. -/
def allocEmpty (slab : Nat) : Nat × HeapState ι :=
  let s := s.modifyCache i fun c => { c with slabsEmpty := c.slabsEmpty.erase slab }
  let (obj, s) := slabAllocObj s slab
  (obj, placeSlab s i slab)

/-- `kmem_cache_alloc` with neither. -/
def allocNew (pages : Nat → Option Nat) : Nat × HeapState ι :=
  let (slab, s) := slabCreate s i pages
  if slab = 0 then (0, s) else
  let (obj, s) := slabAllocObj s slab
  (obj, placeSlab s i slab)

def takeObject (pages : Nat → Option Nat) : Nat × HeapState ι :=
  match (s.caches i).slabsPartial with
  | slab :: _ => allocPartial s i slab
  | [] =>
    match (s.caches i).slabsEmpty with
    | slab :: _ => allocEmpty s i slab
    | [] => allocNew s i pages

/-- `kmem_cache_alloc`: the object, `0` for `NULL`. `pages` is used if a slab has to
be created. -/
def kmemCacheAlloc (pages : Nat → Option Nat) : Nat × HeapState ι :=
  let (obj, t) := takeObject s i pages
  if obj ≠ 0 ∧ (s.caches i).zero then
    (obj, t.store obj (obj + (s.caches i).objSize) fun _ => none)
  else (obj, t)

/-- `kmem_cache_free`. -/
def kmemCacheFree (obj : Nat) : HeapState ι :=
  if obj = 0 then s else
  match findSlabForObj (s.caches i) obj with
  | none => s
  | some slab =>
    let wasFull := (s.slabs slab).inUse = (s.slabs slab).total
    let s := slabFreeObj s slab obj
    if wasFull then
      s.modifyCache i fun c =>
        { c with slabsFull := c.slabsFull.erase slab, slabsPartial := slab :: c.slabsPartial }
    else if (s.slabs slab).inUse = 0 then
      let s := s.modifyCache i fun c => { c with slabsPartial := c.slabsPartial.erase slab }
      if (s.caches i).slabsEmpty = [] then
        s.modifyCache i fun c => { c with slabsEmpty := slab :: c.slabsEmpty }
      else heapFreePages s slab (s.caches i).slabSize
    else s

end

end Kurios.Heap
