import Kurios.Pmm.Defs

/-!
Address spaces: `kernel/mm/as.c`.

* Memory is a word for each frame and word index. The kernel reaches a frame through
  `phys_to_virt`; this model goes to the frame directly. That is what the code does
  for frames in the kernel window, `[KERNEL_PHYS_BASE, KERNEL_PHYS_BASE + 128 MiB)`,
  which every page table maps; other frames it addresses through the identity
  mapping, which user page tables do not have. The results about whole histories ask
  for frames in the window.
* An `address_space_t *` is a handle into `spaces`. `kmalloc` is the environment: a
  call that needs it is given the handle, or `none`.
* The TLB is not modelled; `user_pages`, which no function reads, is left out.
* A VMA list is the list of its areas. `Kurios.Areas` is about the linked list.
-/

namespace Kurios.Vm

open Base Pmm Function

/-- A word of memory, and a page-table entry. -/
abbrev Word := BitVec 64

def ptePresent : Word := 0x1
def pteWritable : Word := 0x2
def pteUser : Word := 0x4
def pteHuge : Word := 0x80
def pteCow : Word := 0x200
def pteNx : Word := 0x8000000000000000
def pteAddrMask : Word := 0x000FFFFFFFFFF000

/-- `entry & flag`, as a condition. -/
def has (entry flag : Word) : Bool := entry &&& flag != 0

/-- The frame an entry points to: `entry & PTE_ADDR_MASK`. -/
def pteFrame (entry : Word) : Nat := physToPfn (entry &&& pteAddrMask).toNat

/-- The address of a frame as a word. -/
def physWord (frame : Nat) : Word := BitVec.ofNat 64 (pfnToPhys frame)

/-- `ENTRIES_PER_TABLE` and `KERNEL_PML4_START`. -/
def entriesPerTable : Nat := 512
def kernelPml4Start : Nat := 256

/-- `PT_INDEX`, `PD_INDEX`, `PDPT_INDEX` and `PML4_INDEX`, for the levels 0 to 3. -/
def tableIndex (level virt : Nat) : Nat := (virt >>> (pageShift + 9 * level)) &&& 0x1FF

/-- The `VMA_*` flags the fault handler reads. -/
structure VmaFlags where
  read : Bool := false
  write : Bool := false
  exec : Bool := false
  shared : Bool := false
  anonymous : Bool := false
deriving DecidableEq, Repr

/-- `vma_t`, without its links; `file` is `0` for `NULL`. -/
structure Region where
  start : Nat
  stop : Nat
  flags : VmaFlags
  file : Nat
  fileOffset : Nat
deriving DecidableEq, Repr

/-- `address_space_t`. -/
structure AddressSpace where
  cr3 : Word
  refCount : Nat
  vmas : Option (List Region)
deriving DecidableEq, Repr

/-- `page_cache_entry_t`, without its links. -/
structure CacheEntry where
  file : Nat
  offset : Nat
  frame : Nat
  dirty : Bool
  refcount : Nat
deriving DecidableEq, Repr

structure VmState where
  pmm : MemInfo
  mem : Nat → Nat → Word
  spaces : Nat → AddressSpace
  kernelCr3 : Word
  cache : Nat → List CacheEntry

variable (s : VmState)

namespace VmState

def setEntry (table index : Nat) (entry : Word) : VmState :=
  { s with mem := update s.mem table (update (s.mem table) index entry) }

def fillFrame (frame : Nat) (words : Nat → Word) : VmState :=
  { s with mem := update s.mem frame words }

def modifySpace (as : Nat) (f : AddressSpace → AddressSpace) : VmState :=
  { s with spaces := update s.spaces as (f (s.spaces as)) }

def setChain (hash : Nat) (chain : List CacheEntry) : VmState :=
  { s with cache := update s.cache hash chain }

/-- The frame of the PML4 of an address space. -/
def root (as : Nat) : Nat := pteFrame (s.spaces as).cr3

end VmState

/-! ### Frames -/

/-- `alloc_page`. -/
def allocFrame : Option Nat × VmState :=
  let (phys, m) := allocPage s.pmm
  (if phys = 0 then none else some (physToPfn phys), { s with pmm := m })

/-- `free_page`. -/
def freeFrame (frame : Nat) : VmState :=
  { s with pmm := freePage s.pmm (pfnToPhys frame) }

/-- `page_get_phys`. -/
def getFrame (frame : Nat) : VmState :=
  { s with pmm := pageGetPhys s.pmm (pfnToPhys frame) }

/-- `page_put_phys`. -/
def putFrame (frame : Nat) : VmState :=
  { s with pmm := (pagePutPhys s.pmm (pfnToPhys frame)).2 }

/-- `alloc_page_table`. -/
def allocPageTable : Option Nat × VmState :=
  match allocFrame s with
  | (none, s) => (none, s)
  | (some frame, s) => (some frame, s.fillFrame frame fun _ => 0)

/-! ### Walking the tables -/

/-- The flags of the tables that `as_get_pte` makes. -/
def tableFlags : Word := ptePresent ||| pteWritable ||| pteUser

/-- The table below entry `index` of `table`; a missing one is allocated and linked with
the flags `create`, unless there are none. -/
def nextTable (create : Option Word) (s : VmState) (table index : Nat) : Option Nat × VmState :=
  let entry := s.mem table index
  if has entry ptePresent then (some (pteFrame entry), s)
  else
    match create with
    | none => (none, s)
    | some flags =>
      match allocPageTable s with
      | (none, s) => (none, s)
      | (some frame, s) => (some frame, s.setEntry table index (physWord frame ||| flags))

/-- The descent of `as_get_pte` from a table of the given level to the table of level
0. Only the PML4 (level 3) is not checked for huge pages. -/
def walkDown (create : Option Word) (virt : Nat) :
    (level table : Nat) → VmState → Option Nat × VmState
  | 0, table, s => (some table, s)
  | level + 1, table, s =>
    let index := tableIndex (level + 1) virt
    let entry := s.mem table index
    if level + 1 ≠ 3 ∧ has entry ptePresent ∧ has entry pteHuge then (none, s) else
    match nextTable create s table index with
    | (none, s) => (none, s)
    | (some next, s) => walkDown create virt level next s

/-- `as_get_pte`, with `tableFlags` or none for `create`, and `get_pte_for_addr`, with none:
the table and the index of the entry. -/
def asGetPte (as virt : Nat) (create : Option Word) : Option (Nat × Nat) × VmState :=
  match walkDown create virt 3 (s.root as) s with
  | (none, s) => (none, s)
  | (some table, s) => (some (table, tableIndex 0 virt), s)

/-- The entry `as_get_pte` points to. -/
def pteAt (as virt : Nat) : Option Word :=
  (asGetPte s as virt none).1.map fun p => s.mem p.1 p.2

/-! ### Mapping -/

/-- `as_map_page`: whether it succeeded. An entry that is present already is
overwritten. -/
def asMapPage (as virt frame : Nat) (flags : Word) : Bool × VmState :=
  match asGetPte s as virt (some tableFlags) with
  | (none, s) => (false, s)
  | (some (table, index), s) =>
    (true, s.setEntry table index
      ((physWord frame &&& pteAddrMask) ||| (flags &&& ~~~pteAddrMask) ||| ptePresent))

/-- `as_unmap_page`: the frame that was mapped. -/
def asUnmapPage (as virt : Nat) : Option Nat × VmState :=
  match asGetPte s as virt none with
  | (none, s) => (none, s)
  | (some (table, index), s) =>
    let entry := s.mem table index
    if has entry ptePresent then (some (pteFrame entry), s.setEntry table index 0) else (none, s)

/-- `as_free_page`. `as_unmap_page` returns a physical address, and frame 0 counts as
none. -/
def asFreePage (as virt : Nat) : VmState :=
  match asUnmapPage s as virt with
  | (none, s) => s
  | (some frame, s) => if frame = 0 then s else putFrame s frame

/-- The address bits of the entry of a huge page, of 1 GiB at level 2 and of 2 MiB at
level 1. -/
def hugeMask (level : Nat) : Word := if level = 2 then 0xFFFFFFC0000000 else 0xFFFFFFFE00000

/-- The walk of `as_get_phys` from a table of the given level down; `0` when nothing is
mapped. -/
def physBelow (mem : Nat → Nat → Word) (virt : Nat) : (level table : Nat) → Word
  | 0, table =>
    let entry := mem table (tableIndex 0 virt)
    if !has entry ptePresent then 0
    else (entry &&& pteAddrMask) ||| BitVec.ofNat 64 (virt &&& 0xFFF)
  | level + 1, table =>
    let entry := mem table (tableIndex (level + 1) virt)
    if !has entry ptePresent then 0
    else if level + 1 ≠ 3 ∧ has entry pteHuge then
      (entry &&& hugeMask (level + 1)) |||
        BitVec.ofNat 64 (virt &&& (2 ^ (pageShift + 9 * (level + 1)) - 1))
    else physBelow mem virt level (pteFrame entry)

def asGetPhys (as virt : Nat) : Word := physBelow s.mem virt 3 (s.root as)

/-- The walk of `as_is_mapped`. -/
def mappedBelow (mem : Nat → Nat → Word) (virt : Nat) : (level table : Nat) → Bool
  | 0, table => has (mem table (tableIndex 0 virt)) ptePresent
  | level + 1, table =>
    let entry := mem table (tableIndex (level + 1) virt)
    if !has entry ptePresent then false
    else if level + 1 ≠ 3 ∧ has entry pteHuge then true
    else mappedBelow mem virt level (pteFrame entry)

def asIsMapped (as virt : Nat) : Bool := mappedBelow s.mem virt 3 (s.root as)

/-! ### Creating and destroying -/

/-- `as_create`, with what `kmalloc` and `vma_list_create` return. -/
def asCreate (handle : Option Nat) (vmas : Option (List Region)) : Option Nat × VmState :=
  match handle with
  | none => (none, s)
  | some as =>
    match allocPageTable s with
    | (none, s) => (none, s)
    | (some pml4, s) =>
      let kernelPml4 := pteFrame s.kernelCr3
      let s := s.fillFrame pml4 fun i =>
        if kernelPml4Start ≤ i then s.mem kernelPml4 i else s.mem pml4 i
      (some as, s.modifySpace as fun _ => ⟨physWord pml4, 1, vmas⟩)

/-- One entry of `free_page_tables_recursive`; `recurse` frees the table below. -/
def freeEntry (level : Nat) (recurse : Nat → VmState → VmState) (entry : Word) (s : VmState) :
    VmState :=
  if !has entry ptePresent then s
  else if (level = 2 ∨ level = 1) ∧ has entry pteHuge then putFrame s (pteFrame entry)
  else if level > 0 then recurse (pteFrame entry) s
  else putFrame s (pteFrame entry)

def freePageTablesRecursive : (level table : Nat) → VmState → VmState
  | 0, table, s =>
    freeFrame (forRange 0 entriesPerTable (fun i s =>
      freeEntry 0 (fun _ s => s) (s.mem table i) s) s) table
  | level + 1, table, s =>
    freeFrame (forRange 0 entriesPerTable (fun i s =>
      freeEntry (level + 1) (freePageTablesRecursive level) (s.mem table i) s) s) table

/-- `as_destroy` of an address space other than the kernel's. -/
def asDestroy (as : Nat) : VmState :=
  let s := s.modifySpace as fun a => { a with refCount := decr32 a.refCount }
  if (s.spaces as).refCount > 0 then s else
  let pml4 := s.root as
  let s := forRange 0 kernelPml4Start (fun i s =>
    if has (s.mem pml4 i) ptePresent then
      freePageTablesRecursive 2 (pteFrame (s.mem pml4 i)) s
    else s) s
  freeFrame s pml4

/-! ### Cloning -/

/-- A loop whose body may give up. -/
def whileOk (lo hi : Nat) (body : Nat → VmState → Bool × VmState) (s : VmState) : Bool × VmState :=
  forRange lo hi (fun i r => if r.1 then body i r.2 else r) (true, s)

/-- The body of the innermost loop of `as_clone`: page `vpn`, whose entry is number
`index` of `table`, is shared with `dst`. -/
def clonePage (dst vpn table index : Nat) (s : VmState) : Bool × VmState :=
  let entry := s.mem table index
  if !has entry ptePresent then (true, s) else
  let frame := pteFrame entry
  let origFlags := entry &&& ~~~pteAddrMask
  let s := getFrame s frame
  let (cowFlags, s) :=
    if has origFlags pteWritable then
      let cowFlags := (origFlags &&& ~~~pteWritable) ||| pteCow
      (cowFlags, s.setEntry table index ((physWord frame &&& pteAddrMask) ||| cowFlags))
    else (origFlags, s)
  match asMapPage s dst (vpn * pageSize) frame cowFlags with
  | (true, s) => (true, s)
  | (false, s) => (false, putFrame s frame)

/-- The four nested loops of `as_clone`, from a table of the given level down.
`vpns` is the number of the table among those of its level. -/
def cloneTable (dst : Nat) : (level vpns table : Nat) → VmState → Bool × VmState
  | 0, vpns, table, s =>
    whileOk 0 entriesPerTable (fun i s => clonePage dst (vpns * entriesPerTable + i) table i s) s
  | level + 1, vpns, table, s =>
    whileOk 0 (if level + 1 = 3 then kernelPml4Start else entriesPerTable) (fun i s =>
      let entry := s.mem table i
      if !has entry ptePresent then (true, s)
      else if level + 1 ≠ 3 ∧ has entry pteHuge then (true, s)
      else cloneTable dst level (vpns * entriesPerTable + i) (pteFrame entry) s) s

/-- `as_clone`. `newVmas` is the empty list `vma_list_create` returns, and `cloned`
says whether `vma_list_clone` succeeds. -/
def asClone (src : Nat) (handle : Option Nat) (newVmas : Option (List Region))
    (cloned : Bool) : Option Nat × VmState :=
  match asCreate s handle newVmas with
  | (none, s) => (none, s)
  | (some dst, s) =>
    let s := match (s.spaces src).vmas with
      | none => s
      | some vmas => s.modifySpace dst fun a =>
        { a with vmas := if cloned then some vmas else none }
    match cloneTable dst 3 0 (s.root src) s with
    | (true, s) => (some dst, s)
    | (false, s) => (none, asDestroy s dst)

end Kurios.Vm
