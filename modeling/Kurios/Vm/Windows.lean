import Kurios.Heap.Layout

/-!
The kernel half of the address space, and the parts of the kernel that map pages there
at addresses of their own choosing:

* `heap_alloc_pages` (`mm/slab.c`) goes upwards from `KHEAP_START`, 896 MB at most;
* `initrd_init` (`initrd/initrd.c`) maps the archive at `0xFFFFFFFF90200000`;
* `load_segment` (`exec/elf_loader.c`) maps each page of a segment for the time it
  takes to fill it, from the same `0xFFFFFFFF90200000` on;
* `shm_alloc_memory` and `shm_free_memory` (`ipc/shm.c`) use the 256 MB from
  `SHM_VIRT_BASE` on.

The last three windows lie inside the first, and the middle two begin at one address.
`vmm_map_page` overwrites an entry that is present, so nothing but the sizes in use
keeps the four apart. `windows_never_alias` says for which sizes they are.

The translation is `kmap`, as in the heap model. Frames are numbers, whether
`vmm_map_page` of the `i`-th page succeeds is an argument, and so is what `alloc_page`
and `alloc_pages` return. The user pages `load_segment` maps on the way are in the other
half, which `elf_load` checks, and are left out.
-/

namespace Kurios.Windows

open Base Pmm Heap Function Option List

variable {ι : Type} {count virt size : Nat} {pages : Nat → Option Nat} {ok : Nat → Bool}

/-! ### The windows -/

/-- Where `initrd_init` and `load_segment` map. -/
def initrdVirt : Nat := 0xFFFFFFFF90200000

/-- `SHM_VIRT_BASE` and `SHM_VIRT_BASE + SHM_VIRT_SIZE`. -/
def shmVirtBase : Nat := 0xFFFFFFFF92000000
def shmVirtEnd : Nat := shmVirtBase + 0x10000000

structure KernelSpace (ι : Type) where
  heap : HeapState ι
  shmVirtNext : Nat

variable (s : KernelSpace ι)

/-- The translation of kernel page addresses. -/
def KernelSpace.kmap : Nat → Option Nat := s.heap.kmap

theorem KernelSpace.kmap_next (next : Nat) :
    KernelSpace.kmap { s with shmVirtNext := next } = s.kmap := rfl

def KernelSpace.setKmap (kmap : Nat → Option Nat) : KernelSpace ι :=
  { s with heap := { s.heap with kmap := kmap } }

/-- The frame `vmm_map_page` writes: `phys & ~0xFFF & PTE_ADDR_MASK`. -/
def frameOf (phys : Nat) : Nat := u64 phys / pageSize % 2 ^ 40

/-- The frames of a contiguous physical range, as far as they can be mapped. -/
def contiguous (phys : Nat) (ok : Nat → Bool) (i : Nat) : Option Nat :=
  if ok i then some (frameOf (phys + i * pageSize)) else none

/-! ### The archive -/

/-- `num_pages` of `initrd_init`. -/
def initrdPages (size : Nat) : Nat := u64 (size + pageSize - 1) / pageSize

/-- `initrd_init`, up to the look at the archive itself: `vmm_map_pages` is the loop of
`heap_alloc_pages`. The result is whether `virt_base` was set. -/
def initrdInit (present : Bool) (start size : Nat) (ok : Nat → Bool) : Bool × KernelSpace ι :=
  if !present then (false, s) else
  if start = 0 ∨ size = 0 then (false, s) else
  let (mapped, kmap) := mapPages initrdVirt (contiguous start ok) (initrdPages size) 0 s.kmap
  (mapped, s.setKmap kmap)

/-! ### Segments -/

def asIsUserAddr (virt : Nat) : Bool := virt < 0x0000800000000000

/-- The number of iterations of the loop of `load_segment`. -/
def segmentPages (vaddr memsz : Nat) : Nat :=
  (alignUp (u64 (vaddr + memsz)) pageSize - alignDown vaddr pageSize) / pageSize

/-- The page loop of `load_segment`: `pages i` is `none` when `alloc_page`, `as_map_page`
or `vmm_map_page` fails, none of which unmaps anything. -/
def fillPages (pages : Nat → Option Nat) :
    (remaining i : Nat) → (Nat → Option Nat) → Bool × (Nat → Option Nat)
  | 0, _, kmap => (true, kmap)
  | n + 1, i, kmap =>
    match pages i with
    | none => (false, kmap)
    | some frame =>
      let tempVirt := u64 (initrdVirt + i * pageSize)
      let kmap := update kmap tempVirt (some frame)
      -- the page is cleared and filled here
      let kmap := update kmap tempVirt none
      fillPages pages n (i + 1) kmap

/-- `load_segment`. -/
def loadSegment (vaddr memsz : Nat) (pages : Nat → Option Nat) : Bool × KernelSpace ι :=
  let (loaded, kmap) := fillPages pages (segmentPages vaddr memsz) 0 s.kmap
  (loaded, s.setKmap kmap)

/-! ### Shared memory -/

/-- The fields of `shm_object_t` that say where its memory is. -/
structure ShmObject where
  physAddr : Nat
  virtAddr : Nat
  size : Nat
deriving DecidableEq, Repr

/-- `pages` of `shm_alloc_memory`. -/
def shmPages (size : Nat) : Nat := u64 (size + pageSize - 1) / pageSize

/-- `shm_alloc_memory`: `phys` is what `alloc_pages` returns. The bump pointer moves
before the limit is checked, and does not move back. -/
def shmAllocMemory (size phys : Nat) (ok : Nat → Bool) : Option ShmObject × KernelSpace ι :=
  let pages := shmPages size
  if phys = 0 then (none, s) else
  let virt := s.shmVirtNext
  let s := { s with shmVirtNext := u64 (virt + pages * pageSize) }
  if u64 (virt + pages * pageSize) > shmVirtEnd then (none, s) else
  let (mapped, kmap) := mapPages virt (contiguous phys ok) pages 0 s.kmap
  (if mapped then some ⟨phys, virt, pages * pageSize⟩ else none, s.setKmap kmap)

/-- `shm_free_memory`. -/
def shmFreeMemory (shm : ShmObject) : KernelSpace ι :=
  if shm.physAddr = 0 ∨ shm.virtAddr = 0 then s else
  s.setKmap (unmapPages shm.virtAddr (shm.size / pageSize) s.kmap)

/-! ### Histories -/

inductive Owner where
  | heap
  | initrd
  | shm (object : ShmObject)
deriving DecidableEq, Repr

/-- A run of pages that was handed out and not given back since, with the frame each
page was given. -/
structure Holding where
  owner : Owner
  virt : Nat
  count : Nat
  frames : Nat → Option Nat

/-- Every page of the run translates to its frame. -/
def Holding.Translates (r : Holding) (kmap : Nat → Option Nat) : Prop :=
  ∀ i < r.count, r.frames i ≠ none ∧ kmap (r.virt + i * pageSize) = r.frames i

instance (r : Holding) (kmap : Nat → Option Nat) : Decidable (r.Translates kmap) :=
  inferInstanceAs (Decidable (∀ i < r.count, _))

/-- The kernel half, and who holds which pages of it. `load_segment` gives its pages back
before it returns. -/
structure WindowHistory (ι : Type) where
  state : KernelSpace ι
  holdings : List Holding

inductive WindowCall where
  | heapAllocPages (count : Nat) (pages : Nat → Option Nat)
  | initrdInit (present : Bool) (start size : Nat) (ok : Nat → Bool)
  | loadSegment (vaddr memsz : Nat) (pages : Nat → Option Nat)
  | shmAllocMemory (size phys : Nat) (ok : Nat → Bool)
  | shmFreeMemory (shm : ShmObject)

namespace WindowHistory

/-- Nothing is held before the first call, whatever the boot loader has mapped. -/
def start (heap : HeapState ι) : WindowHistory ι :=
  ⟨⟨{ heap with current := kheapStart }, shmVirtBase⟩, []⟩

section

variable (h : WindowHistory ι)

/-- The holdings without those of one owner. -/
def without (owner : Owner) : List Holding :=
  h.holdings.filter fun r => r.owner ≠ owner

/-- One call. `elf_load` has checked the segment, and an object is freed by somebody who
has one. A second `initrd_init` forgets what the first one mapped. -/
def step : WindowCall → Option (WindowHistory ι)
  | .heapAllocPages count pages =>
    let (virt, heap) := Heap.heapAllocPages h.state.heap count pages
    some ⟨{ h.state with heap := heap },
      if virt = 0 then h.holdings else ⟨.heap, virt, count, pages⟩ :: h.holdings⟩
  | .initrdInit present start size ok =>
    let (mapped, s) := Windows.initrdInit h.state present start size ok
    some ⟨s, if mapped then ⟨.initrd, initrdVirt, initrdPages size, contiguous start ok⟩ ::
      h.without .initrd else h.without .initrd⟩
  | .loadSegment vaddr memsz pages =>
    if asIsUserAddr vaddr ∧ asIsUserAddr (u64 (vaddr + memsz + (2 ^ 64 - 1))) then
      some ⟨(Windows.loadSegment h.state vaddr memsz pages).2, h.holdings⟩
    else none
  | .shmAllocMemory size phys ok =>
    let (shm, s) := Windows.shmAllocMemory h.state size phys ok
    some ⟨s, match shm with
      | none => h.holdings
      | some shm => ⟨.shm shm, shm.virtAddr, shmPages size, contiguous phys ok⟩ :: h.holdings⟩
  | .shmFreeMemory shm =>
    if ∃ r ∈ h.holdings, r.owner = .shm shm then
      some ⟨Windows.shmFreeMemory h.state shm, h.without (.shm shm)⟩
    else none

/-- Every page that is held translates to the frame it was given. -/
def Translates : Prop :=
  ∀ r ∈ h.holdings, r.Translates h.state.kmap
deriving Decidable

end

end WindowHistory

/-! ### Runs of pages -/

/-- Between the two translations only pages of the run of `count` pages from `virt` on
differ. -/
def OnlyRun (virt count : Nat) (kmap kmap' : Nat → Option Nat) : Prop :=
  ∀ a, (∀ j < count, a ≠ virt + j * pageSize) → kmap' a = kmap a

namespace Holding

/-- The end of the run. -/
def stop (r : Holding) : Nat := r.virt + r.count * pageSize

/-- No page is both in the holding and in the other run. -/
def Clear (r : Holding) (virt count : Nat) : Prop :=
  r.stop ≤ virt ∨ virt + count * pageSize ≤ r.virt

instance : Std.Symm fun r q : Holding => r.Clear q.virt q.count := ⟨fun _ _ => Or.symm⟩

theorem Translates.onlyRun {r : Holding} {kmap kmap' : Nat → Option Nat} (h : r.Translates kmap)
    (hrun : OnlyRun virt count kmap kmap') (hclear : r.Clear virt count) : r.Translates kmap' := by
  intro i hi
  have hother : ∀ j < count, r.virt + i * pageSize ≠ virt + j * pageSize := by
    intro j hj
    simp only [Clear, stop, pageSize] at hclear ⊢
    omega
  rw [hrun _ hother]
  exact h i hi

end Holding

/-- `vmm_map_pages` writes its run only; when it succeeds, it has mapped all of it. -/
theorem mapPages_run (virt : Nat) (pages kmap : Nat → Option Nat)
    (hwrap : virt + count * pageSize ≤ 2 ^ 64) :
    OnlyRun virt count kmap (mapPages virt pages count 0 kmap).2 ∧
      ((mapPages virt pages count 0 kmap).1 = true → ∀ owner,
        Holding.Translates ⟨owner, virt, count, pages⟩ (mapPages virt pages count 0 kmap).2) := by
  obtain ⟨honly, hmap⟩ := mapPages_spec virt pages kmap
    (by rwa [zero_add])
  rw [zero_add] at honly hmap
  exact ⟨honly, fun hok _ i => (hmap hok).2 i zero_le⟩

theorem fillPages_run (pages kmap : Nat → Option Nat) {n i}
    (hwrap : initrdVirt + (i + n) * pageSize ≤ 2 ^ 64) :
    OnlyRun initrdVirt (i + n) kmap (fillPages pages n i kmap).2 := by
  induction n generalizing i kmap with
  | zero => exact fun _ _ => rfl
  | succ n ih =>
    cases hpage : pages i with
    | none =>
      simp only [fillPages, hpage]
      exact fun _ _ => rfl
    | some frame =>
      simp only [fillPages, hpage]
      intro a ha
      have haddr : u64 (initrdVirt + i * pageSize) = initrdVirt + i * pageSize :=
        u64_of_lt (by
          simp only [pageSize] at hwrap ⊢
          omega)
      have hne : a ≠ u64 (initrdVirt + i * pageSize) := by
        rw [haddr]
        exact ha i (by omega)
      rw [ih _ (by rwa [add_right_comm]) a fun j hj => ha j (by omega),
        update_of_ne hne, update_of_ne hne]

theorem unmapPages_run (kmap : Nat → Option Nat) (hwrap : virt + count * pageSize ≤ 2 ^ 64) :
    OnlyRun virt count kmap (unmapPages virt count kmap) := by
  intro a ha
  rw [unmapPages_apply hwrap, if_neg]
  rintro ⟨i, hi, rfl⟩
  exact ha i hi rfl

/-! ### Separation -/

/-- A holding lies in the part of the kernel half its owner has used so far. -/
def Holding.InWindow (r : Holding) : Prop :=
  match r.owner with
  | .heap => r.stop ≤ s.heap.current
  | .initrd => initrdVirt ≤ r.virt ∧ r.stop ≤ shmVirtBase
  | .shm shm => shmVirtBase ≤ r.virt ∧ r.stop ≤ s.shmVirtNext ∧ shm.virtAddr = r.virt ∧
      shm.size = r.count * pageSize

/-- The windows in use do not meet. -/
structure Separate (h : WindowHistory ι) : Prop where
  start : kheapStart ≤ h.state.heap.current
  heap : h.state.heap.current ≤ initrdVirt
  shm : shmVirtBase ≤ h.state.shmVirtNext
  next : h.state.shmVirtNext < 2 ^ 64
  inWindow : ∀ r ∈ h.holdings, r.InWindow h.state
  translates : h.Translates
  apart : h.holdings.Pairwise fun r q => r.Clear q.virt q.count

namespace Separate

variable {h : WindowHistory ι} {s : KernelSpace ι} {l : List Holding} {virt count : Nat}

theorem of_start (heap : HeapState ι) : Separate (WindowHistory.start heap) where
  start := le_rfl
  heap := show kheapStart ≤ initrdVirt by decide
  shm := le_rfl
  next := show shmVirtBase < 2 ^ 64 by decide
  inWindow := fun _ hr => absurd hr not_mem_nil
  translates := fun _ hr => absurd hr not_mem_nil
  apart := List.Pairwise.nil

/-- Pages outside every holding that stays are written, and the bump pointers move up. -/
theorem rewrite (h0 : Separate h) (virt count : Nat) (hsub : l.Sublist h.holdings)
    (hrun : OnlyRun virt count h.state.kmap s.kmap) (hclear : ∀ r ∈ l, r.Clear virt count)
    (hcur : h.state.heap.current ≤ s.heap.current) (hheap : s.heap.current ≤ initrdVirt)
    (hshm : h.state.shmVirtNext ≤ s.shmVirtNext) (hnext : s.shmVirtNext < 2 ^ 64) :
    Separate ⟨s, l⟩ where
  start := h0.start.trans hcur
  heap := hheap
  shm := h0.shm.trans hshm
  next := hnext
  inWindow := by
    intro r hr
    have hin := h0.inWindow r (hsub.subset hr)
    cases howner : r.owner <;> simp only [Holding.InWindow, howner] at hin ⊢
    case heap => exact hin.trans hcur
    case initrd => exact hin
    case shm => exact ⟨hin.1, hin.2.1.trans hshm, hin.2.2⟩
  translates := fun r hr => (h0.translates r (hsub.subset hr)).onlyRun hrun (hclear r hr)
  apart := h0.apart.sublist hsub

/-- A run that meets no other is handed out. -/
theorem hold (h0 : Separate ⟨s, l⟩) {r} (hin : r.InWindow s)
    (htranslates : r.Translates s.kmap) (hclear : ∀ q ∈ l, q.Clear r.virt r.count) :
    Separate ⟨s, r :: l⟩ where
  __ := h0
  inWindow := forall_mem_cons.mpr ⟨hin, h0.inWindow⟩
  translates := forall_mem_cons.mpr ⟨htranslates, h0.translates⟩
  apart := by
    apply List.Pairwise.cons _ h0.apart
    intro q hq
    exact (hclear q hq).symm

/-! The runs the calls write, against the holdings. -/

theorem clear_heap (h0 : Separate h)
    (hfits : h.state.heap.current + count * pageSize ≤ initrdVirt) :
    ∀ r ∈ h.holdings, r.Clear h.state.heap.current count := by
  intro r hr
  have hin := h0.inWindow r hr
  have hgap : initrdVirt ≤ shmVirtBase := by decide
  cases howner : r.owner <;> simp only [Holding.InWindow, howner] at hin
  case heap => exact .inl hin
  case initrd => exact .inr (hfits.trans hin.1)
  case shm => exact .inr ((hfits.trans hgap).trans hin.1)

theorem clear_middle (h0 : Separate h) (hfits : initrdVirt + count * pageSize ≤ shmVirtBase)
    {r} (hr : r ∈ h.holdings) (hnone : r.owner ≠ .initrd) : r.Clear initrdVirt count := by
  have hin := h0.inWindow r hr
  cases howner : r.owner <;> simp only [Holding.InWindow, howner] at hin
  case heap => exact .inl (hin.trans h0.heap)
  case initrd => exact absurd howner hnone
  case shm => exact .inr (hfits.trans hin.1)

theorem clear_shm (h0 : Separate h) : ∀ r ∈ h.holdings, r.Clear h.state.shmVirtNext count := by
  intro r hr
  have hin := h0.inWindow r hr
  have hgap : initrdVirt ≤ shmVirtBase := by decide
  cases howner : r.owner <;> simp only [Holding.InWindow, howner] at hin
  case heap => exact .inl (((hin.trans h0.heap).trans hgap).trans h0.shm)
  case initrd => exact .inl (hin.2.trans h0.shm)
  case shm => exact .inl hin.2.1

end Separate

/-! ### The calls -/

/-- A call stays in the window of its component: the heap ends below the archive, unless
the request is refused; the archive ends below the shared memory; a segment is loaded
only while no archive is mapped, and fits in its place; and the shared memory's bump
pointer does not wrap. -/
def WindowSafe (h : WindowHistory ι) : WindowCall → Prop
  | .heapAllocPages count _ =>
    h.state.heap.current + count * pageSize < 2 ^ 64 ∧
      (h.state.heap.current + count * pageSize ≤ initrdVirt ∨
        kheapEnd < h.state.heap.current + count * pageSize)
  | .initrdInit _ _ size _ => initrdVirt + initrdPages size * pageSize ≤ shmVirtBase
  | .loadSegment vaddr memsz _ =>
    segmentPages vaddr memsz = 0 ∨
      (initrdVirt + segmentPages vaddr memsz * pageSize ≤ shmVirtBase ∧
        ∀ r ∈ h.holdings, r.owner ≠ .initrd)
  | .shmAllocMemory size _ _ => h.state.shmVirtNext + shmPages size * pageSize < 2 ^ 64
  | .shmFreeMemory _ => True

instance (h : WindowHistory ι) (c : WindowCall) : Decidable (WindowSafe h c) := by
  cases c <;> unfold WindowSafe <;> infer_instance

namespace Separate

variable {h h' : WindowHistory ι}

section

variable (h0 : Separate h)
include h0

/-- A call that writes nothing and hands out nothing. -/
theorem sublist {l} (hsub : l.Sublist h.holdings) : Separate ⟨h.state, l⟩ :=
  h0.rewrite 0 0 hsub (fun _ _ => rfl) (fun _ _ => .inr zero_le)
    le_rfl h0.heap le_rfl h0.next

theorem heapAllocPages (hsafe : WindowSafe h (.heapAllocPages count pages))
    (hstep : h.step (.heapAllocPages count pages) = some h') : Separate h' := by
  obtain ⟨hwrap, hfits⟩ := hsafe
  have hpos : h.state.heap.current ≠ 0 := by
    have hstart := h0.start
    simp only [kheapStart] at hstart
    omega
  rcases hfits with hfits | hrefused
  · have hclear := h0.clear_heap hfits
    obtain ⟨kmap, honly, hfail | ⟨hok, -, hmap⟩⟩ := heapAllocPages_spec pages hwrap
    · simp only [WindowHistory.step, hfail, ↓reduceIte, some.injEq] at hstep
      subst hstep
      exact h0.rewrite _ _ (.refl _) honly hclear le_rfl h0.heap le_rfl h0.next
    simp only [WindowHistory.step, hok, if_neg hpos, some.injEq] at hstep
    subst hstep
    apply hold
    · exact h0.rewrite _ _ (.refl _) honly hclear (Nat.le_add_right _ _) hfits le_rfl h0.next
    · exact le_rfl
    · exact hmap
    · exact hclear
  have hlen : u64 (count * pageSize) = count * pageSize := u64_of_lt (by omega)
  simp only [WindowHistory.step, Heap.heapAllocPages, hlen, u64_of_lt hwrap, if_pos hrefused,
    ↓reduceIte, some.injEq] at hstep
  subst hstep
  exact h0

theorem initrdInit {present start} (hsafe : WindowSafe h (.initrdInit present start size ok))
    (hstep : h.step (.initrdInit present start size ok) = some h') : Separate h' := by
  have hkept : (h.without .initrd).Sublist h.holdings := filter_sublist
  have hclear : ∀ r ∈ h.without .initrd, r.Clear initrdVirt (initrdPages size) := by
    intro r hr
    obtain ⟨hin, hnone⟩ := mem_filter.mp hr
    exact h0.clear_middle hsafe hin (of_decide_eq_true hnone)
  have hwrap : initrdVirt + initrdPages size * pageSize ≤ 2 ^ 64 := hsafe.trans (by decide)
  obtain ⟨honly, hmap⟩ := mapPages_run initrdVirt (contiguous start ok) h.state.kmap hwrap
  simp only [WindowHistory.step, Windows.initrdInit] at hstep
  split at hstep
  · cases hstep
    exact h0.sublist hkept
  split at hstep <;> cases hstep
  · exact h0.sublist hkept
  have hrest : Separate ⟨h.state.setKmap _, h.without .initrd⟩ :=
    h0.rewrite _ _ hkept honly hclear le_rfl h0.heap le_rfl h0.next
  split
  · next hok => exact hrest.hold ⟨le_rfl, hsafe⟩ (hmap hok _) hclear
  · exact hrest

theorem loadSegment {vaddr memsz} (hsafe : WindowSafe h (.loadSegment vaddr memsz pages))
    (hstep : h.step (.loadSegment vaddr memsz pages) = some h') : Separate h' := by
  simp only [WindowHistory.step] at hstep
  split at hstep
  case isFalse => cases hstep
  cases hstep
  rcases hsafe with hzero | ⟨hfits, hnone⟩
  · simp only [Windows.loadSegment, hzero, fillPages]
    exact h0
  have hrun := fillPages_run pages h.state.kmap
    (by rw [zero_add]; exact hfits.trans (by decide))
  rw [zero_add] at hrun
  exact h0.rewrite _ _ (.refl _) hrun
    (fun r hr => h0.clear_middle hfits hr (hnone r hr)) le_rfl h0.heap le_rfl h0.next

theorem shmAllocMemory {phys} (hwrap : WindowSafe h (.shmAllocMemory size phys ok))
    (hstep : h.step (.shmAllocMemory size phys ok) = some h') : Separate h' := by
  have hnext := u64_of_lt hwrap
  obtain ⟨honly, hmapped⟩ :=
    mapPages_run h.state.shmVirtNext (contiguous phys ok) h.state.kmap hwrap.le
  have hup : h.state.shmVirtNext ≤ h.state.shmVirtNext + shmPages size * pageSize :=
    Nat.le_add_right _ _
  by_cases hphys : phys = 0
  · simp only [WindowHistory.step, Windows.shmAllocMemory, if_pos hphys, some.injEq] at hstep
    subst hstep
    exact h0
  by_cases hfull : h.state.shmVirtNext + shmPages size * pageSize > shmVirtEnd
  · simp only [WindowHistory.step, Windows.shmAllocMemory, hnext, if_neg hphys, if_pos hfull,
      some.injEq] at hstep
    subst hstep
    exact h0.rewrite 0 0 (.refl _) (fun _ _ => rfl)
      (fun _ _ => .inr zero_le) le_rfl h0.heap hup hwrap
  cases hmap : mapPages h.state.shmVirtNext (contiguous phys ok) (shmPages size) 0 h.state.kmap with
  | mk mapped kmap =>
    rw [hmap] at honly hmapped
    have hrest : Separate (WindowHistory.mk ⟨{ h.state.heap with kmap := kmap }, _⟩ h.holdings) :=
      h0.rewrite _ _ (.refl _) honly h0.clear_shm le_rfl h0.heap hup hwrap
    simp only [WindowHistory.step, Windows.shmAllocMemory, hnext, if_neg hphys, if_neg hfull,
      KernelSpace.kmap_next, hmap, some.injEq] at hstep
    subst hstep
    cases mapped with
    | false => exact hrest
    | true => exact hrest.hold ⟨h0.shm, le_rfl, rfl, rfl⟩ (hmapped rfl _) h0.clear_shm

theorem shmFreeMemory {shm} (hstep : h.step (.shmFreeMemory shm) = some h') : Separate h' := by
  obtain ⟨hheld, rfl⟩ := ite_eq_some hstep
  have hkept : (h.without (.shm shm)).Sublist h.holdings := filter_sublist
  obtain ⟨r, hr, howner⟩ := hheld
  have hin := h0.inWindow r hr
  simp only [Holding.InWindow, howner] at hin
  obtain ⟨-, hstop, hvirt, hsize⟩ := hin
  have hcnt : shm.size / pageSize = r.count := by
    rw [hsize]
    exact Nat.mul_div_cancel _ (by decide)
  unfold Windows.shmFreeMemory
  split
  · exact h0.sublist hkept
  have hclear : ∀ q ∈ h.without (.shm shm), q.Clear r.virt r.count := by
    intro q hq
    obtain ⟨hqin, hqowner⟩ := mem_filter.mp hq
    have hne : q ≠ r := by
      rintro rfl
      exact of_decide_eq_true hqowner howner
    exact h0.apart.forall hqin hr hne
  have hrun := unmapPages_run h.state.kmap (hstop.trans h0.next.le)
  rw [hcnt, hvirt]
  exact h0.rewrite _ _ hkept hrun hclear le_rfl h0.heap le_rfl h0.next

end

end Separate

/-! ### No window aliases another -/

/-- One call that stays in its window keeps the windows separate. -/
theorem Separate.step {h h' : WindowHistory ι} {c : WindowCall} (h0 : Separate h)
    (hsafe : WindowSafe h c) (hstep : h.step c = some h') : Separate h' := by
  cases c with
  | heapAllocPages count pages => exact h0.heapAllocPages hsafe hstep
  | initrdInit present start size ok => exact h0.initrdInit hsafe hstep
  | loadSegment vaddr memsz pages => exact h0.loadSegment hsafe hstep
  | shmAllocMemory size phys ok => exact h0.shmAllocMemory hsafe hstep
  | shmFreeMemory shm => exact h0.shmFreeMemory hstep

/-- As long as every call stays in its window, a page that is held translates to the frame
it was given. -/
theorem windows_never_alias {heap : HeapState ι} {calls : List WindowCall} {h : WindowHistory ι}
    (hrun : GuardedRun WindowHistory.step WindowSafe (WindowHistory.start heap) calls h) :
    h.Translates :=
  (hrun.inv Separate (fun _ _ _ h0 => h0.step)
    (Separate.of_start heap)).translates

/-- A heap without caches over an empty kernel half. -/
def emptyHeap : HeapState Empty where
  current := 0
  kmap := fun _ => none
  mem := fun _ => none
  slabs := fun _ => ⟨none, 0, 0, 0⟩
  caches := Empty.elim

/-- The heap grows, a segment of two pages is loaded, two shared memory objects are made,
the archive is mapped and the first object is freed. -/
def separateCalls : List WindowCall :=
  [.heapAllocPages 2 (fun i => some (0x300 + i)), .loadSegment 0x400000 0x1800 (fun i => some i),
    .shmAllocMemory 4096 0x500000 (fun _ => true), .shmAllocMemory 8192 0x600000 (fun _ => true),
    .initrdInit true 0x1000000 5000 (fun _ => true),
    .shmFreeMemory ⟨0x500000, shmVirtBase, 4096⟩]

theorem windows_never_alias_separateCalls :
    ∃ h, GuardedRun WindowHistory.step WindowSafe (WindowHistory.start emptyHeap)
      separateCalls h ∧ h.holdings.length = 3 ∧ h.Translates := by
  apply exists_and_of (by decide +kernel)
  intro h hrun _
  exact windows_never_alias hrun

/-- The archive is mapped and a segment of one page is loaded: the first page of the
archive is no longer mapped. -/
theorem loadSegment_unmaps_initrd :
    ∃ h, run WindowHistory.step (WindowHistory.start emptyHeap)
        [.initrdInit true 0x1000000 4096 (fun _ => true),
          .loadSegment 0x400000 0x1000 (fun _ => some 0x700)] = some h ∧
      h.holdings.map (·.owner) = [.initrd] ∧ h.state.kmap initrdVirt = none ∧ ¬ h.Translates := by
  decide +kernel

end Kurios.Windows
