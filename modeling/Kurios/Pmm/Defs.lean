import Kurios.Base.Word
import Kurios.Base.Loop

/-!
The physical memory manager of `kernel/mm/pmm.c`: page descriptors, the zone with
its eleven intrusive free lists, the boot-time classification of memory and the
buddy allocator.

Representation choices:

* a `page_t *` is the index of its descriptor (`page - pages`), so `next` and
  `prev` are optional frame numbers and `NULL` is `none`;
* `pages` is the memory the page array lives in. The array has `totalPages`
  descriptors; an index at or past that reads and writes whatever memory follows
  the array, which is why `pmmInit` takes the contents that memory had at boot;
* the flag word is a record of the bits the code uses (`PAGE_FLAG_COW` is used
  nowhere);
* page counters are naturals: they count frames of one machine and stay far
  below `2 ^ 64`. Boot-time addresses are 64-bit words and wrap as in C.
-/

namespace Kurios.Pmm

open Base Function

def maxOrder : Nat := 10
def pageSize : Nat := 4096
def pageShift : Nat := 12

/-- The `PAGE_FLAG_*` bits. -/
structure PageFlags where
  buddy : Bool := false
  reserved : Bool := false
  kernel : Bool := false
  head : Bool := false
  tail : Bool := false
deriving DecidableEq, Repr

/-- `page_t`. -/
structure Page where
  next : Option Nat := none
  prev : Option Nat := none
  flags : PageFlags := {}
  order : Nat := 0
  refcount : Nat := 0
deriving DecidableEq, Repr

/-- `zone_t`; the arrays are indexed by orders up to `maxOrder`. -/
structure Zone where
  freeLists : Nat → Option Nat
  freeCount : Nat → Nat
  basePfn : Nat
  pageCount : Nat
  freePages : Nat

/-- `mem_info_t`. -/
structure MemInfo where
  totalPages : Nat
  freePages : Nat
  reservedPages : Nat
  kernelPages : Nat
  pageArrayPages : Nat
  pages : Nat → Page
  zone : Zone

def physToPfn (phys : Nat) : Nat := phys >>> pageShift

def pfnToPhys (pfn : Nat) : Nat := pfn <<< pageShift

theorem physToPfn_eq (x : Nat) : physToPfn x = x / 4096 := by
  simp [physToPfn, pageShift, Nat.shiftRight_eq_div_pow]

theorem pfnToPhys_eq (pfn : Nat) : pfnToPhys pfn = pfn * 4096 := by
  simp [pfnToPhys, pageShift, Nat.shiftLeft_eq]

theorem alignDown_pageSize (x : Nat) : alignDown x pageSize = x / 4096 * 4096 :=
  alignDown_two_pow x 12

theorem alignUp_pageSize (x : Nat) : alignUp x pageSize = u64 (x + 4095) / 4096 * 4096 :=
  alignUp_two_pow x 12

theorem physToPfn_pfnToPhys (pfn : Nat) : physToPfn (pfnToPhys pfn) = pfn := by
  simp [physToPfn, pfnToPhys, Nat.shiftLeft_shiftRight]

theorem pfnToPhys_inj {p q} (h : pfnToPhys p = pfnToPhys q) : p = q := by
  rw [← physToPfn_pfnToPhys p, h, physToPfn_pfnToPhys]

theorem pfnToPhys_ne_zero {p} (h : 0 < p) : pfnToPhys p ≠ 0 :=
  fun hz => h.ne' (pfnToPhys_inj hz)

/-! ### Descriptor and list-head updates -/

variable (m : MemInfo)

namespace MemInfo

def modifyPage (pfn : Nat) (f : Page → Page) : MemInfo :=
  { m with pages := update m.pages pfn (f (m.pages pfn)) }

def setHead (order : Nat) (head : Option Nat) : MemInfo :=
  { m with zone := { m.zone with freeLists := update m.zone.freeLists order head } }

def setCount (order count : Nat) : MemInfo :=
  { m with zone := { m.zone with freeCount := update m.zone.freeCount order count } }

end MemInfo

/-! ### Free lists -/

def getBuddyPfn (pfn order : Nat) : Nat := pfn ^^^ (1 <<< order)

def freeListAdd (page order : Nat) : MemInfo :=
  let head := m.zone.freeLists order
  let m := m.modifyPage page fun p =>
    { p with prev := none, next := head, order := order, flags := { p.flags with buddy := true } }
  let m := match head with
    | some h => m.modifyPage h fun p => { p with prev := some page }
    | none => m
  (m.setHead order (some page)).setCount order (m.zone.freeCount order + 1)

/-- The first half of the unlink: the predecessor, or the list head, skips the page. -/
def unlinkPrev (page order : Nat) : MemInfo :=
  match (m.pages page).prev with
  | some q => m.modifyPage q fun p => { p with next := (m.pages page).next }
  | none => m.setHead order (m.pages page).next

/-- The second half: the successor skips it. -/
def unlinkNext (page : Nat) : MemInfo :=
  match (m.pages page).next with
  | some q => m.modifyPage q fun p => { p with prev := (m.pages page).prev }
  | none => m

def freeListRemove (page order : Nat) : MemInfo :=
  let m := unlinkNext (unlinkPrev m page order) page
  let m := m.modifyPage page fun p =>
    { p with prev := none, next := none, flags := { p.flags with buddy := false } }
  m.setCount order (m.zone.freeCount order - 1)

/-! ### Allocation -/

/-- The search of `alloc_pages`: the first order from `order` on, among the
`remaining` orders left, whose list is not empty. -/
def findOrder (m : MemInfo) : (remaining order : Nat) → Option Nat
  | 0, _ => none
  | n + 1, order =>
    if (m.zone.freeLists order).isSome then some order else findOrder m n (order + 1)

/-- The split loop: from `order + splits` down to `order`, the upper half of the
block at `pfn` goes to its free list. -/
def splitBlock (m : MemInfo) (pfn order : Nat) : (splits : Nat) → MemInfo
  | 0 => m
  | n + 1 => splitBlock (freeListAdd m (pfn + (1 <<< (order + n))) (order + n)) pfn order n

/-- The frames of a fresh block other than its head. -/
def markTails (pfn numPages : Nat) : MemInfo :=
  forRange 1 numPages (fun i m => m.modifyPage (pfn + i) fun p =>
    { p with flags := { p.flags with tail := true }, refcount := 1 }) m

/-- The descriptors of a block that is handed out. -/
def markAllocated (pfn order : Nat) : MemInfo :=
  let m := m.modifyPage pfn fun p =>
    { p with flags := { p.flags with head := true }, order := order, refcount := 1 }
  markTails m pfn (1 <<< order)

/-- `alloc_pages`: the physical address of the block, `0` on failure. -/
def allocPages (order : Nat) : Nat × MemInfo :=
  if order > maxOrder then (0, m) else
  match findOrder m (maxOrder + 1 - order) order with
  | none => (0, m)
  | some currentOrder =>
    match m.zone.freeLists currentOrder with
    | none => (0, m)
    | some block =>
      let m := freeListRemove m block currentOrder
      let m := splitBlock m block order (currentOrder - order)
      let m := markAllocated m block order
      let numPages := 1 <<< order
      (pfnToPhys block,
        { m with freePages := m.freePages - numPages,
                 zone := { m.zone with freePages := m.zone.freePages - numPages } })

/-! ### Freeing -/

def clearTails (pfn numPages : Nat) : MemInfo :=
  forRange 1 numPages (fun i m => m.modifyPage (pfn + i) fun p =>
    { p with flags := { p.flags with tail := false }, refcount := 0 }) m

/-- The descriptors of a block that is given back. -/
def clearAllocated (pfn order : Nat) : MemInfo :=
  let m := m.modifyPage pfn fun p =>
    { p with flags := { p.flags with head := false }, refcount := 0 }
  clearTails m pfn (1 <<< order)

/-- The merge loop of `free_pages`; `remaining` is `maxOrder - order`. Returns
the state with the block's first frame and final order. -/
def mergeBuddies : (remaining : Nat) → MemInfo → (pfn order : Nat) → MemInfo × Nat × Nat
  | 0, m, pfn, order => (m, pfn, order)
  | n + 1, m, pfn, order =>
    let buddyPfn := getBuddyPfn pfn order
    let buddy := m.pages buddyPfn
    if !buddy.flags.buddy || buddy.order != order then (m, pfn, order)
    else
      mergeBuddies n (freeListRemove m buddyPfn order)
        (if buddyPfn < pfn then buddyPfn else pfn) (order + 1)

def freePages (m : MemInfo) (physAddr order : Nat) : MemInfo :=
  if order > maxOrder then m else
  if physAddr = 0 then m else
  if !isAligned physAddr (pageSize <<< order) then m else
  let pfn := physToPfn physAddr
  let numPages := 1 <<< order
  let m := clearAllocated m pfn order
  let (m, pfn, order) := mergeBuddies (maxOrder - order) m pfn order
  let m := freeListAdd m pfn order
  { m with freePages := m.freePages + numPages,
           zone := { m.zone with freePages := m.zone.freePages + numPages } }

def allocPage : Nat × MemInfo := allocPages m 0

def freePage (physAddr : Nat) : MemInfo := freePages m physAddr 0

/-! ### Reference counts -/

/-- `phys_to_page`, as the index of the descriptor. -/
def physToPage (physAddr : Nat) : Option Nat :=
  if physToPfn physAddr ≥ m.totalPages then none else some (physToPfn physAddr)

def pageGet (page : Nat) : MemInfo :=
  m.modifyPage page fun p => { p with refcount := incr32 p.refcount }

/-- `page_put`: the new count, and the state. -/
def pagePut (page : Nat) : Nat × MemInfo :=
  if (m.pages page).refcount = 0 then (0, m)
  else ((m.pages page).refcount - 1,
    m.modifyPage page fun p => { p with refcount := p.refcount - 1 })

def pageGetPhys (phys : Nat) : MemInfo :=
  match physToPage m phys with
  | some page => pageGet m page
  | none => m

def pagePutPhys (phys : Nat) : Nat × MemInfo :=
  match physToPage m phys with
  | none => (0, m)
  | some page =>
    let (newCount, m) := pagePut m page
    (newCount, if newCount = 0 then freePage m phys else m)

end Kurios.Pmm
