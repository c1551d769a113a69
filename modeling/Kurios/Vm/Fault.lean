import Kurios.Vm.Defs

/-!
The page cache (`kernel/mm/page_cache.c`) and the page-fault handlers
(`kernel/mm/fault.c`), and what a user instruction does with them.

* The cache is the contents of its 256 hash chains. The LRU list, which nothing
  reads, and the counters are left out. The lock makes every function atomic;
  `page_cache_sync` lets go of it while it writes, but only changes `dirty`.
* File systems are the environment: `data` is the page that reading a file page
  yields, after zero filling, or `none` if the read fails.
* A user access to a page that is present runs on the page tables; a write to a
  read-only page raises a fault first.
-/

namespace Kurios.Vm

open Base Pmm

/-! ### The page cache -/

/-- `PAGE_CACHE_HASH_SIZE`. -/
def pageCacheHashSize : Nat := 256

def pageCacheHashFn (file offset : Nat) : Nat :=
  u64 ((file ^^^ (offset >>> 12)) * 0x9e3779b97f4a7c15) &&& (pageCacheHashSize - 1)

/-- `offset & ~(PAGE_SIZE - 1)`. -/
def pageOffset (offset : Nat) : Nat := alignDown offset pageSize

/-- An entry is the one for this file and page-aligned offset. -/
def CacheEntry.isFor (file offset : Nat) (entry : CacheEntry) : Bool :=
  entry.file == file && entry.offset == offset

variable (s : VmState)

/-- `find_entry_locked`. -/
def findEntry (file offset : Nat) : Option CacheEntry :=
  let offset := pageOffset offset
  (s.cache (pageCacheHashFn file offset)).find? (·.isFor file offset)

/-- The entry `find_entry_locked` finds is changed. -/
def modifyEntry (file offset : Nat) (f : CacheEntry → CacheEntry) : VmState :=
  let offset := pageOffset offset
  let hash := pageCacheHashFn file offset
  s.setChain hash ((s.cache hash).modify ((s.cache hash).findIdx (·.isFor file offset)) f)

def pageCacheLookup (file offset : Nat) : Option Nat :=
  if file = 0 then none else (findEntry s file offset).map CacheEntry.frame

/-- `page_cache_insert`; `allocated` says whether there is memory for the entry. -/
def pageCacheInsert (file offset frame : Nat) (allocated : Bool) : Int × VmState :=
  if file = 0 ∨ frame = 0 then (-22, s) else
  let offset := pageOffset offset
  if (findEntry s file offset).isSome then (-17, s)
  else if !allocated then (-12, s)
  else
    let hash := pageCacheHashFn file offset
    (0, s.setChain hash (⟨file, offset, frame, false, 1⟩ :: s.cache hash))

def pageCacheMarkDirty (file offset : Nat) : VmState :=
  if file = 0 then s else modifyEntry s file offset fun e => { e with dirty := true }

def pageCacheRef (file offset : Nat) : VmState :=
  if file = 0 then s else
    modifyEntry s file offset fun e => { e with refcount := incr32 e.refcount }

def pageCachePut (file offset : Nat) : VmState :=
  if file = 0 then s else modifyEntry s file offset fun e => { e with refcount := e.refcount - 1 }

/-- `page_cache_sync`; `file` is `0` for all files. `written` says for which entries
the file system's `write` succeeds. -/
def pageCacheSync (file : Nat) (written : CacheEntry → Bool) : VmState :=
  { s with cache := fun i =>
      if i < pageCacheHashSize then
        (s.cache i).map fun e =>
          if e.dirty ∧ (file = 0 ∨ e.file = file) ∧ written e then { e with dirty := false } else e
      else s.cache i }

/-- One hash chain in `page_cache_invalidate`: the entries that stay. -/
def invalidateChain (file : Nat) : List CacheEntry → VmState → List CacheEntry × VmState
  | [], s => ([], s)
  | e :: es, s =>
    if e.file = file then
      invalidateChain file es (if e.refcount ≤ 1 then freeFrame s e.frame else s)
    else
      let (es, s) := invalidateChain file es s
      (e :: es, s)

def pageCacheInvalidate (file : Nat) : VmState :=
  if file = 0 then s else
  forRange 0 pageCacheHashSize (fun i s =>
    let (chain, s) := invalidateChain file (s.cache i) s
    s.setChain i chain) s

/-- `page_cache_get`: the frame. A page that cannot be inserted is returned all the
same. -/
def pageCacheGet (file offset : Nat) (data : Option (Nat → Word))
    (allocated : Bool) : Option Nat × VmState :=
  if file = 0 then (none, s) else
  let offset := pageOffset offset
  match pageCacheLookup s file offset with
  | some frame => (some frame, pageCacheRef s file offset)
  | none =>
    match allocFrame s with
    | (none, s) => (none, s)
    | (some frame, s) =>
      match data with
      | none => (none, freeFrame s frame)
      | some words =>
        (some frame, (pageCacheInsert (s.fillFrame frame words) file offset frame allocated).2)

/-! ### Faults -/

/-- `handle_cow_fault`, with `as` the current address space. -/
def handleCowFault (as faultAddr : Nat) : Bool × VmState :=
  match (asGetPte s as faultAddr none).1 with
  | none => (false, s)
  | some (table, index) =>
    let entry := s.mem table index
    if !has entry ptePresent || !has entry pteCow then (false, s) else
    let oldFrame := pteFrame entry
    if s.pmm.totalPages ≤ oldFrame then (false, s)
    else if (s.pmm.pages oldFrame).refcount = 1 then
      (true, s.setEntry table index ((entry ||| pteWritable) &&& ~~~pteCow))
    else
      match allocFrame s with
      | (none, s) => (false, s)
      | (some newFrame, s) =>
        let s := s.fillFrame newFrame (s.mem oldFrame)
        let flags := (entry &&& ~~~pteAddrMask &&& ~~~pteCow) ||| pteWritable
        let s := s.setEntry table index ((physWord newFrame &&& pteAddrMask) ||| flags)
        (true, putFrame s oldFrame)

/-- `vma_find`. -/
def findRegion (vmas : List Region) (addr : Nat) : Option Region :=
  vmas.find? fun r => decide (r.start ≤ addr ∧ addr < r.stop)

/-- The VMA is backed by its file. -/
def Region.fileBacked (r : Region) : Bool := r.file != 0 && !r.flags.anonymous

theorem Region.file_ne_zero {r : Region} (h : r.fileBacked = true) : r.file ≠ 0 := by
  intro hzero
  simp [fileBacked, hzero] at h

/-- The flags of a page of the VMA, before `PTE_NX`. -/
def Region.pteFlags (r : Region) : Word :=
  if r.fileBacked then
    if !r.flags.shared && r.flags.write then ptePresent ||| pteUser ||| pteCow
    else ptePresent ||| pteUser ||| (if r.flags.write && r.flags.shared then pteWritable else 0)
  else ptePresent ||| pteUser ||| (if r.flags.write then pteWritable else 0)

/-- Pages of a VMA without `VMA_EXEC` are not executable. -/
def Region.allFlags (r : Region) : Word := r.pteFlags ||| (if r.flags.exec then 0 else pteNx)

/-- The offset in the file of the page at `addr`. -/
def Region.pageFileOffset (r : Region) (addr : Nat) : Nat :=
  u64 (r.fileOffset + (alignDown addr pageSize - r.start))

section

variable (as faultAddr : Nat)

/-- The two halves of `handle_demand_fault`, for a VMA that was found. -/
def faultFile (r : Region) (data : Option (Nat → Word)) (allocated : Bool) : Bool × VmState :=
  match pageCacheGet s r.file (r.pageFileOffset faultAddr) data allocated with
  | (none, s) => (false, s)
  | (some frame, s) =>
    match asMapPage s as faultAddr frame r.allFlags with
    | (true, s) => (true, s)
    | (false, s) => (false, pageCachePut s r.file (r.pageFileOffset faultAddr))

def faultAnonymous (r : Region) : Bool × VmState :=
  match allocFrame s with
  | (none, s) => (false, s)
  | (some frame, s) =>
    match asMapPage (s.fillFrame frame fun _ => 0) as faultAddr frame r.allFlags with
    | (true, s) => (true, s)
    | (false, s) => (false, freeFrame s frame)

/-- `handle_demand_fault`, with `as` the address space of the current process. -/
def handleDemandFault (data : Option (Nat → Word)) (allocated : Bool) : Bool × VmState :=
  match (s.spaces as).vmas with
  | none => (false, s)
  | some vmas =>
    match findRegion vmas faultAddr with
    | none => (false, s)
    | some r =>
      if !r.flags.read then (false, s)
      else if r.fileBacked then faultFile s as faultAddr r data allocated
      else faultAnonymous s as faultAddr r

end

/-- The area of an address. -/
def regionAt (a addr : Nat) : Option Region :=
  (s.spaces a).vmas.bind fun vmas => findRegion vmas addr

/-- A demand fault is refused, or it is one in a readable area. -/
theorem handleDemandFault_cases (a addr : Nat) (data : Option (Nat → Word))
    (allocated : Bool) : handleDemandFault s a addr data allocated = (false, s) ∨
      ∃ r, regionAt s a addr = some r ∧ ((r.fileBacked = true ∧
          handleDemandFault s a addr data allocated = faultFile s a addr r data allocated) ∨
        (r.fileBacked = false ∧
          handleDemandFault s a addr data allocated = faultAnonymous s a addr r)) := by
  unfold handleDemandFault regionAt
  cases (s.spaces a).vmas with
  | none => exact .inl rfl
  | some vmas =>
    rw [Option.bind_some]
    cases hfind : findRegion vmas addr with
    | none =>
      left
      simp [hfind]
    | some r =>
      simp only [hfind]
      by_cases hread : r.flags.read = true
      · right
        refine ⟨r, rfl, ?_⟩
        cases hfile : r.fileBacked with
        | true => exact .inl ⟨rfl, by simp [hread]⟩
        | false => exact .inr ⟨rfl, by simp [hread]⟩
      · simp [hread]

/-! ### User accesses -/

/-- The entry the processor finds for an address, if the page is present. -/
def presentPte (as virt : Nat) : Option Word :=
  (pteAt s as virt).filter fun entry => has entry ptePresent

/-- The word at an address, for a page that is present. -/
def userRead (as virt : Nat) : Option Word :=
  (presentPte s as virt).map fun entry => s.mem (pteFrame entry) (virt % pageSize / 8)

/-- The processor stores into the page an entry maps. -/
def storeWord (entry : Word) (virt : Nat) (update : Word → Word) : VmState :=
  let frame := pteFrame entry
  s.setEntry frame (virt % pageSize / 8) (update (s.mem frame (virt % pageSize / 8)))

/-- A store instruction: the word that holds the address is replaced by `update` of
its value, which for a byte store replaces one of its bytes. A write to a page that
is present and read-only faults; `page_fault_handler` resolves the fault for COW
pages, and the instruction runs again. -/
def userWrite (as virt : Nat) (update : Word → Word) : Bool × VmState :=
  match presentPte s as virt with
  | none => (false, s)
  | some entry =>
    if has entry pteWritable then (true, storeWord s entry virt update)
    else if has entry pteCow then
      match handleCowFault s as virt with
      | (false, s) => (false, s)
      | (true, s) =>
        match presentPte s as virt with
        | none => (false, s)
        | some entry =>
          if has entry pteWritable then (true, storeWord s entry virt update) else (false, s)
    else (false, s)

end Kurios.Vm
