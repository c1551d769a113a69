import Kurios.Pmm.Defs

/-!
`pmm_init`: from the bootloader's memory map to the first free lists.

Three passes over the map: find the highest address and size the page array;
clear the reserved flag of every frame of a usable entry; after the kernel image,
the page array and the initrd have been marked reserved again, cut what is left
of each usable entry into the largest aligned blocks and push them on the free
lists.

Addresses and lengths come from the bootloader as 64-bit words and every sum of
them wraps. A loop that would touch a descriptor past the page array has no
defined result, so `pmmInit` returns `none` there.
-/

namespace Kurios.Pmm

open Base

/-- `MemoryMapEntry` of `boot_info.h`. -/
structure MemoryMapEntry where
  base : BitVec 64
  length : BitVec 64
  type : BitVec 32
deriving DecidableEq, Repr

/-- `MMAP_TYPE_USABLE`. -/
def mmapTypeUsable : BitVec 32 := 1

/-- The fields of `BootInfo` that `pmm_init` reads; `initrdFlag` is
`flags & BOOT_FLAG_INITRD`. -/
structure BootInfo where
  memoryMap : List MemoryMapEntry
  initrdFlag : Bool
  initrdStart : BitVec 64
  initrdSize : BitVec 64
deriving DecidableEq, Repr

/-- `sizeof(page_t)`. -/
def pageDescSize : Nat := 32

/-- The kernel is loaded at 2 MiB. -/
def kernelPhysStart : Nat := 0x200000

/-- Memory below 1 MiB is left to the BIOS. -/
def lowMemoryEnd : Nat := 0x100000

/-! ### First pass: sizes -/

/-- The wrapped end of an entry, as every pass computes it. -/
def MemoryMapEntry.wrapEnd (e : MemoryMapEntry) : Nat := u64 (e.base.toNat + e.length.toNat)

def maxPhysAddr (map : List MemoryMapEntry) : Nat :=
  map.foldl (fun acc e => if e.wrapEnd > acc then e.wrapEnd else acc) 0

variable (boot : BootInfo)

def bootTotalPages : Nat :=
  physToPfn (alignUp (maxPhysAddr boot.memoryMap) pageSize)

def pageArraySize : Nat := u64 (bootTotalPages boot * pageDescSize)

/-- The page array is placed right after the kernel image. -/
def pageArrayPhys (kernelPhysEnd : BitVec 64) : Nat := alignUp kernelPhysEnd.toNat pageSize

/-! ### Ranges of frames -/

/-- The frames `[start_pfn, end_pfn)` that the second and third pass take from an
entry, `none` where they `continue`. -/
def usableRegion (e : MemoryMapEntry) : Option (Nat × Nat) :=
  if e.type ≠ mmapTypeUsable then none else
  let base := alignUp e.base.toNat pageSize
  let stop := alignDown e.wrapEnd pageSize
  let base := if base < lowMemoryEnd then lowMemoryEnd else base
  if stop ≤ base then none else some (physToPfn base, physToPfn stop)

def kernelRange (kernelPhysEnd : BitVec 64) : Nat × Nat :=
  (physToPfn kernelPhysStart, physToPfn (alignUp kernelPhysEnd.toNat pageSize))

def pageArrayRange (kernelPhysEnd : BitVec 64) : Nat × Nat :=
  (physToPfn (pageArrayPhys kernelPhysEnd),
    physToPfn (alignUp (u64 (pageArrayPhys kernelPhysEnd + pageArraySize boot)) pageSize))

/-- The frames of the initrd, empty when there is none. -/
def initrdRange : Nat × Nat :=
  if boot.initrdFlag && boot.initrdStart != 0 && boot.initrdSize != 0 then
    (physToPfn (alignDown boot.initrdStart.toNat pageSize),
      physToPfn (alignUp (u64 (boot.initrdStart.toNat + boot.initrdSize.toNat)) pageSize))
  else (0, 0)

/-- A loop over the descriptors `[r.1, r.2)`; undefined when it leaves the page array. -/
def overFrames (r : Nat × Nat) (body : Nat → MemInfo → MemInfo) (m : MemInfo) : Option MemInfo :=
  if r.1 < r.2 ∧ m.totalPages < r.2 then none else some (forRange r.1 r.2 body m)

/-! ### Second pass: flags -/

section

variable (pfn : Nat) (m : MemInfo)

def clearFlags : MemInfo := m.modifyPage pfn fun p =>
  { p with flags := {} }

def markKernel : MemInfo :=
  let m := m.modifyPage pfn fun p => { p with flags := { kernel := true, reserved := true } }
  { m with kernelPages := m.kernelPages + 1 }

def markInitrd : MemInfo :=
  let m := m.modifyPage pfn fun p => { p with flags := { reserved := true } }
  { m with reservedPages := m.reservedPages + 1 }

end

def markUsable (map : List MemoryMapEntry) (m : MemInfo) : Option MemInfo :=
  (map.filterMap usableRegion).foldlM (fun m r => overFrames r clearFlags m) m

/-! ### Third pass: free blocks -/

/-- The alignment, size and availability tests for one order. -/
def blockFits (m : MemInfo) (pfn endPfn order : Nat) : Bool :=
  pfn &&& ((1 <<< order) - 1) == 0 && decide (pfn + (1 <<< order) ≤ endPfn) &&
    (List.range (1 <<< order)).all fun j => !(m.pages (pfn + j)).flags.reserved

/-- The largest order that fits, counting down from `order`; `0` is not tested. -/
def largestOrder (m : MemInfo) (pfn endPfn : Nat) : (order : Nat) → Nat
  | 0 => 0
  | k + 1 => if blockFits m pfn endPfn (k + 1) then k + 1 else largestOrder m pfn endPfn k

def addFreeBlock (m : MemInfo) (pfn order : Nat) : MemInfo :=
  let m := freeListAdd m pfn order
  { m with freePages := m.freePages + (1 <<< order),
           zone := { m.zone with freePages := m.zone.freePages + (1 <<< order) } }

/-- The `while (pfn < end_pfn)` loop. Every iteration advances `pfn`, so
`endPfn - pfn` iterations are enough. -/
def addRegion (endPfn : Nat) : (fuel pfn : Nat) → MemInfo → MemInfo
  | 0, _, m => m
  | n + 1, pfn, m =>
    if pfn ≥ endPfn then m else
    if (m.pages pfn).flags.reserved then addRegion endPfn n (pfn + 1) m else
    let order := largestOrder m pfn endPfn maxOrder
    addRegion endPfn n (pfn + (1 <<< order)) (addFreeBlock m pfn order)

def addUsable (map : List MemoryMapEntry) (m : MemInfo) : MemInfo :=
  (map.filterMap usableRegion).foldl (fun m r => addRegion r.2 (r.2 - r.1) r.1 m) m

/-! ### The whole function -/

/-- The zeroed zone and counters, and the page array with every frame reserved. -/
def resetPages (memory : Nat → Page) : MemInfo :=
  let total := bootTotalPages boot
  let m : MemInfo :=
    { totalPages := total, freePages := 0, reservedPages := 0, kernelPages := 0
      pageArrayPages := alignUp (pageArraySize boot) pageSize / pageSize
      pages := memory
      zone := { freeLists := fun _ => none, freeCount := fun _ => 0, basePfn := 0
                pageCount := total, freePages := 0 } }
  forRange 0 total (fun i m => m.modifyPage i fun _ => { flags := { reserved := true } }) m

def countReserved (m : MemInfo) : MemInfo :=
  { m with
    reservedPages := forRange 0 m.totalPages (fun pfn count =>
      if (m.pages pfn).flags.reserved && !(m.pages pfn).flags.kernel then count + 1 else count)
      m.reservedPages }

/-- `pmm_init`. `kernelPhysEnd` is the linker's `_kernel_phys_end`, `memory` what
the memory at the page array holds at boot. -/
def pmmInit (kernelPhysEnd : BitVec 64) (memory : Nat → Page) : Option MemInfo := do
  let m ← markUsable boot.memoryMap (resetPages boot memory)
  let m ← overFrames (kernelRange kernelPhysEnd) markKernel m
  let m ← overFrames (pageArrayRange boot kernelPhysEnd) markKernel m
  let m ← overFrames (initrdRange boot) markInitrd m
  return countReserved (addUsable boot.memoryMap m)

end Kurios.Pmm
