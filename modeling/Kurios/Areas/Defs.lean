import Kurios.Base.DList
import Kurios.Heap.Defs

/-!
The VMA list of `kernel/mm/vma.c`.

A `vma_t *` is its address and `vmas` is the memory the nodes live in. The nodes
come from a slab cache: `kmem_cache_alloc` is an argument of `vmaCreate`, the
pointer it returned or `none`. A loop over the list follows `next` until `NULL`;
it returns `none` when that takes more nodes than the kernel heap has bytes, which
no list of distinct nodes does.
-/

namespace Kurios.Areas

open Base Pmm
open Heap (kheapStart kheapEnd)

/-- `vma_t`. `stop` is the field `end`. -/
structure Vma where
  start : Nat
  stop : Nat
  flags : Nat
  prot : Nat
  next : Option Nat := none
  prev : Option Nat := none
  file : Option Nat := none
  fileOffset : Nat := 0
deriving DecidableEq, Repr

/-- `vma_list_t`. -/
structure VmaList where
  head : Option Nat
  tail : Option Nat
  count : Nat
deriving DecidableEq, Repr

/-- One list and the memory of the nodes. -/
structure VmaState where
  vmas : Nat → Vma
  list : VmaList

variable (s : VmaState)

namespace VmaState

def modifyVma (vma : Nat) (f : Vma → Vma) : VmaState :=
  { s with vmas := Function.update s.vmas vma (f (s.vmas vma)) }

def setHead (head : Option Nat) : VmaState :=
  { s with list := { s.list with head := head } }

def setTail (tail : Option Nat) : VmaState :=
  { s with list := { s.list with tail := tail } }

def setCount (count : Nat) : VmaState :=
  { s with list := { s.list with count := count } }

def next (vma : Nat) : Option Nat := (s.vmas vma).next
def prev (vma : Nat) : Option Nat := (s.vmas vma).prev

end VmaState

/-- More nodes than fit in the kernel heap. -/
def walkLimit : Nat := kheapEnd - kheapStart

/-- `vma_list_create`, on memory `vmas`. -/
def vmaListCreate (vmas : Nat → Vma) : VmaState := ⟨vmas, ⟨none, none, 0⟩⟩

/-! ### Searches -/

def vmaFind (addr : Nat) : Option (Option Nat) :=
  walk s.next (fun p =>
    if (s.vmas p).start ≤ addr ∧ addr < (s.vmas p).stop then some (some p)
    else if addr < (s.vmas p).start then some none
    else none) none walkLimit s.list.head

def vmaFindOrNext (addr : Nat) : Option (Option Nat) :=
  walk s.next (fun p => if addr < (s.vmas p).stop then some (some p) else none)
    none walkLimit s.list.head

def vmaOverlaps (start stop : Nat) : Option Bool :=
  walk s.next (fun p =>
    if start < (s.vmas p).stop ∧ (s.vmas p).start < stop then some true
    else if stop ≤ (s.vmas p).start then some false
    else none) false walkLimit s.list.head

/-! ### Updates -/

/-- `if (prev) prev->next = value; else list->head = value;` -/
def storeNext (prev value : Option Nat) : VmaState :=
  match prev with
  | some p => s.modifyVma p fun v => { v with next := value }
  | none => s.setHead value

/-- `if (next) next->prev = value; else list->tail = value;` -/
def storePrev (next value : Option Nat) : VmaState :=
  match next with
  | some n => s.modifyVma n fun v => { v with prev := value }
  | none => s.setTail value

/-- The stores of `vma_insert` once the insertion point is known. -/
def linkVma (vma : Nat) (prev curr : Option Nat) : VmaState :=
  let s := s.modifyVma vma fun v => { v with prev := prev, next := curr }
  let s := storeNext s prev (some vma)
  let s := storePrev s curr (some vma)
  s.setCount (incr32 s.list.count)

def vmaInsert (vma : Nat) : Option VmaState :=
  (walkWhile s.next (fun c => (s.vmas c).start < (s.vmas vma).start) walkLimit none s.list.head).map
    fun (prev, curr) => linkVma s vma prev curr

/-- `vma_create`: the new area, `none` for `NULL`. `alloc` is what
`kmem_cache_alloc` returns, if it is called. -/
def vmaCreate (start stop flags prot : Nat) (alloc : Option Nat) :
    Option (Option Nat × VmaState) := do
  let start := alignDown start pageSize
  let stop := alignUp stop pageSize
  if stop ≤ start then return (none, s)
  if ← vmaOverlaps s start stop then return (none, s)
  match alloc with
  | none => return (none, s)
  | some vma =>
    let s := s.modifyVma vma fun _ => { start := start, stop := stop, flags := flags, prot := prot }
    let s ← vmaInsert s vma
    return (some vma, s)

/-- `vma_destroy`; the node goes back to the slab cache. -/
def vmaDestroy (vma : Nat) : VmaState :=
  let s := storeNext s (s.vmas vma).prev (s.vmas vma).next
  let s := storePrev s (s.vmas vma).next (s.vmas vma).prev
  s.setCount (decr32 s.list.count)

end Kurios.Areas
