import Kurios.Pmm.FreeList

/-!
The buddy allocator refines an arena.

`Buddy m A` is the abstraction relation: the free lists represent the free blocks
of `A`, both page counters are its free page count, and its frames are frames of
the page array other than frame 0. `allocPages_spec` and `freePages_spec` say what
the two entry points do to the arena and to the reference counts; callers need
nothing else about them.

The split and merge loops move between the two with one block "in hand": it is
live in the arena while the loop runs, and the other live blocks do not change.
-/

namespace Kurios.Pmm

open Base Finset Block

variable {count j k n order p pfn : Nat} {m m' : MemInfo} {A : Arena} {b : Block}
  {free : Finset Block}

/-- The state of the allocator represents the arena `A`. -/
structure Buddy (m : MemInfo) (A : Arena) : Prop where
  lists : Lists m A.free
  order_le : ∀ b ∈ A.live, b.order ≤ maxOrder
  inside : ∀ f ∈ A.frames, 0 < f ∧ f < m.totalPages
  zonePages : m.zone.freePages = A.freePages
  infoPages : m.freePages = A.freePages

/-! ### The descriptors of one block -/

/-- The descriptors of block `b` change in nothing the free lists read, except the
order on its first page, and each has `count` references afterwards. -/
structure Marked (m : MemInfo) (b : Block) (count : Nat) (m' : MemInfo) : Prop where
  next : ∀ q, (m'.pages q).next = (m.pages q).next
  prev : ∀ q, (m'.pages q).prev = (m.pages q).prev
  mark : ∀ q, (m'.pages q).flags.buddy = (m.pages q).flags.buddy
  order : ∀ q ≠ b.base, (m'.pages q).order = (m.pages q).order
  refcount : ∀ q, (m'.pages q).refcount = if q ∈ b.frames then count else (m.pages q).refcount
  zone : m'.zone = m.zone
  totalPages : m'.totalPages = m.totalPages
  infoPages : m'.freePages = m.freePages

/-- The first page of a block, or one of the pages after it. -/
theorem mem_frames_iff_head_or_tail (pfn order q : Nat) :
    q ∈ (⟨pfn, order⟩ : Block).frames ↔ q = pfn ∨ pfn + 1 ≤ q ∧ q < pfn + (1 <<< order) := by
  have hpos := Nat.two_pow_pos order
  simp only [mem_frames, size, Nat.shiftLeft_eq, one_mul]
  omega

/-- One update of the first page of a block and another of every page after it,
neither of which touches what the free lists read. -/
theorem marked_of_head_tails (m : MemInfo) (pfn order : Nat) {f g}
    (hf : ∀ p, (f p).next = p.next ∧ (f p).prev = p.prev ∧
      (f p).flags.buddy = p.flags.buddy ∧ (f p).refcount = count)
    (hg : ∀ p, (g p).next = p.next ∧ (g p).prev = p.prev ∧
      (g p).flags.buddy = p.flags.buddy ∧ (g p).refcount = count ∧ (g p).order = p.order) :
    Marked m ⟨pfn, order⟩ count
      (forRange 1 (1 <<< order) (fun i m => m.modifyPage (pfn + i) g) (m.modifyPage pfn f)) := by
  rw [MemInfo.forRange_modifyPage]
  refine ⟨fun q => ?_, fun q => ?_, fun q => ?_, fun q hq => ?_, fun q => ?_, rfl, rfl, rfl⟩
  all_goals
    simp only [mem_frames_iff_head_or_tail, MemInfo.modifyPage_pages]
    -- The first page, a later page, or a page of another block.
    by_cases hhead : q = pfn
    · simp_all
    · by_cases htail : pfn + 1 ≤ q ∧ q < pfn + 1 <<< order
      · simp_all
      · simp only [hhead, htail, or_self, if_false]

theorem markAllocated_marked (m : MemInfo) (pfn order : Nat) :
    Marked m ⟨pfn, order⟩ 1 (markAllocated m pfn order) :=
  marked_of_head_tails m pfn order (fun _ => ⟨rfl, rfl, rfl, rfl⟩) fun _ =>
    ⟨rfl, rfl, rfl, rfl, rfl⟩

theorem clearAllocated_marked (m : MemInfo) (pfn order : Nat) :
    Marked m ⟨pfn, order⟩ 0 (clearAllocated m pfn order) :=
  marked_of_head_tails m pfn order (fun _ => ⟨rfl, rfl, rfl, rfl⟩) fun _ =>
    ⟨rfl, rfl, rfl, rfl, rfl⟩

/-- Marking a live block leaves the free lists alone. -/
theorem Marked.lists (hm : Marked m b count m') (h : Lists m A.free) (hb : b ∈ A.live) :
    Lists m' A.free := by
  refine h.frame ?_ ?_ hm.totalPages hm.next hm.prev hm.mark fun c hc => hm.order _ ?_
  · rw [hm.zone]
  · rw [hm.zone]
  · exact Arena.free_base_ne hc hb b.base_mem_frames

/-! ### The search and the two loops over blocks -/

theorem findOrder_some (h : findOrder m n k = some j) :
    k ≤ j ∧ j < k + n ∧ ∃ p, m.zone.freeLists j = some p := by
  induction n generalizing k with
  | zero => simp [findOrder] at h
  | succ n ih =>
    unfold findOrder at h
    split at h
    · next hsome =>
      obtain rfl : k = j := by simpa using h
      exact ⟨le_rfl, by omega, Option.isSome_iff_exists.mp hsome⟩
    · obtain ⟨hk, hj, hp⟩ := ih h
      exact ⟨by omega, by omega, hp⟩

/-- Only the free lists and their marks differ between the two states. -/
structure Relinked (m m' : MemInfo) : Prop where
  refcount : ∀ q, (m'.pages q).refcount = (m.pages q).refcount
  totalPages : m'.totalPages = m.totalPages
  infoPages : m'.freePages = m.freePages
  zonePages : m'.zone.freePages = m.zone.freePages

namespace Relinked

theorem refl (m : MemInfo) : Relinked m m := ⟨fun _ => rfl, rfl, rfl, rfl⟩

theorem trans {m1 m2 m3} (h : Relinked m1 m2) (h' : Relinked m2 m3) : Relinked m1 m3 where
  refcount q := (h'.refcount q).trans (h.refcount q)
  totalPages := h'.totalPages.trans h.totalPages
  infoPages := h'.infoPages.trans h.infoPages
  zonePages := h'.zonePages.trans h.zonePages

theorem add (m : MemInfo) (p k : Nat) : Relinked m (freeListAdd m p k) :=
  ⟨by simp, by simp, by simp, by simp⟩

theorem remove (m : MemInfo) (p k : Nat) : Relinked m (freeListRemove m p k) :=
  ⟨by simp, by simp, by simp, by simp⟩

theorem split (m : MemInfo) (pfn order n : Nat) : Relinked m (splitBlock m pfn order n) := by
  induction n generalizing m with
  | zero => exact refl m
  | succ n ih => exact (add m _ _).trans (ih _)

theorem merge (n : Nat) (m : MemInfo) (pfn order : Nat) :
    Relinked m (mergeBuddies n m pfn order).1 := by
  induction n generalizing m pfn order with
  | zero => exact refl m
  | succ n ih =>
    unfold mergeBuddies
    dsimp only
    split
    · exact refl m
    · exact (remove m _ _).trans (ih _ _ _)

end Relinked

/-- The split loop cuts the block in hand down to `order`. -/
theorem splitBlock_lists (h : Lists m A.free) (hb : ⟨pfn, order + n⟩ ∈ A.live)
    (hn : order + n ≤ maxOrder) :
    ∃ A' : Arena, Lists (splitBlock m pfn order n) A'.free ∧ ⟨pfn, order⟩ ∈ A'.live ∧
      A'.live.erase ⟨pfn, order⟩ = A.live.erase ⟨pfn, order + n⟩ ∧ A'.frames = A.frames := by
  induction n generalizing m A with
  | zero => exact ⟨A, h, hb, rfl, rfl⟩
  | succ n ih =>
    let A1 := A.split pfn (order + n) hb
    -- The upper half lies in the block in hand, so its first page is no free block.
    have hbase : ∀ b ∈ A.free, b.base ≠ pfn + (1 <<< (order + n)) := fun b hfree =>
      Arena.free_base_ne hfree hb (by
        simp only [mem_frames, size, Nat.shiftLeft_eq, ← add_assoc, pow_succ]
        have := Nat.two_pow_pos (order + n)
        omega)
    have hlists : Lists (freeListAdd m (pfn + (1 <<< (order + n))) (order + n)) A1.free := by
      have := h.add (k := order + n) (by omega) hbase
      simpa [A1, Arena.split, upper, Nat.shiftLeft_eq] using this
    have hlower := (Arena.halves_not_mem hb).1
    have hin : ⟨pfn, order + n⟩ ∈ A1.live := mem_insert_self _ _
    obtain ⟨A', hl, hmem, hrest, hfrs⟩ := ih hlists hin (by omega)
    refine ⟨A', hl, hmem, ?_, hfrs.trans (Arena.frames_split hb)⟩
    rw [hrest]
    exact erase_insert fun he => hlower (mem_union_right _ (mem_of_mem_erase he))

/-- The merge loop joins the block in hand with its free buddies. The divisibility
of the page array is what keeps the buddy's descriptor inside it: a stale mark on
a descriptor past the end would not be excluded. -/
theorem mergeBuddies_lists (h : Lists m A.free) (hb : ⟨pfn, order⟩ ∈ A.live)
    (hn : order + n = maxOrder) (hinside : ∀ f ∈ A.frames, f < m.totalPages)
    (htotal : 2 ^ maxOrder ∣ m.totalPages) :
    ∃ (A' : Arena) (b : Block), (mergeBuddies n m pfn order).2 = (b.base, b.order) ∧
      b.order ≤ maxOrder ∧ Lists (mergeBuddies n m pfn order).1 A'.free ∧ b ∈ A'.live ∧
      A'.live.erase b = A.live.erase ⟨pfn, order⟩ ∧ A'.frames = A.frames := by
  have hle : order ≤ maxOrder := by omega
  induction n generalizing m A pfn order with
  | zero => exact ⟨A, ⟨pfn, order⟩, rfl, hle, h, hb, rfl, rfl⟩
  | succ n ih =>
    unfold mergeBuddies
    dsimp only
    split
    · exact ⟨A, ⟨pfn, order⟩, rfl, hle, h, hb, rfl, rfl⟩
    next hcond =>
    simp only [Bool.or_eq_true, Bool.not_eq_true', bne_iff_ne, ne_eq, not_or, not_not,
      Bool.not_eq_false] at hcond
    obtain ⟨hflag, horder⟩ := hcond
    have hbuddy : getBuddyPfn pfn order = (buddy ⟨pfn, order⟩).base := by
      simp [getBuddyPfn, buddy, size, Nat.shiftLeft_eq]
    have hbase : pfn < m.totalPages := hinside pfn (Arena.live_frames_subset hb (base_mem_frames _))
    have hdvd : 2 ^ (order + 1) ∣ m.totalPages := dvd_trans (pow_dvd_pow 2 (by omega)) htotal
    have hlt : (buddy ⟨pfn, order⟩).base < m.totalPages :=
      buddy_base_lt (Arena.live_aligned hb) hdvd hbase
    rw [hbuddy] at hflag horder ⊢
    -- The mark and the order on the buddy's descriptor make it a free block.
    have hfree : buddy ⟨pfn, order⟩ ∈ A.free := by
      obtain ⟨k, hk⟩ := h.only _ hlt hflag
      obtain rfl : order = k := horder.symm.trans (h.flag _ hk).2
      exact hk
    let A1 := A.merge ⟨pfn, order⟩ hb hfree
    have hpar : (if (buddy ⟨pfn, order⟩).base < pfn
        then (buddy ⟨pfn, order⟩).base else pfn) = (parent ⟨pfn, order⟩).base := by
      simp only [parent]
      split <;> omega
    have hin : ⟨(parent ⟨pfn, order⟩).base, order + 1⟩ ∈ A1.live := mem_insert_self _ _
    have hfrs : A1.frames = A.frames := Arena.frames_merge hb hfree
    rw [hpar]
    obtain ⟨A', b, heq, hb', hlists, hmem, hrest, hsame⟩ :=
      ih (m := freeListRemove m (buddy ⟨pfn, order⟩).base order) (A := A1)
        (h.remove hfree) hin (by omega) (by simpa [hfrs] using hinside)
        (by simpa using htotal) (by omega)
    refine ⟨A', b, heq, hb', hlists, hmem, ?_, hsame.trans hfrs⟩
    rw [hrest]
    exact erase_insert fun he => Arena.parent_not_mem hb (mem_union_right _ (mem_of_mem_erase he))

/-! ### The entry points -/

section

variable (m : MemInfo) (A : Arena) (b : Block) (m' : MemInfo)

/-- What a successful `alloc_pages` does: the block `b` becomes live, with one
reference on each of its frames. -/
structure Allocated (A' : Arena) : Prop where
  buddy : Buddy m' A'
  fresh : b ∉ A.live
  live : A'.live = insert b A.live
  frames : A'.frames = A.frames
  totalPages : m'.totalPages = m.totalPages
  refcount : ∀ q, (m'.pages q).refcount = if q ∈ b.frames then 1 else (m.pages q).refcount

/-- What `free_pages` does to a live block `b`: it becomes free, its frames lose
their references. -/
structure Freed (A' : Arena) : Prop where
  buddy : Buddy m' A'
  live : A'.live = A.live.erase b
  frames : A'.frames = A.frames
  totalPages : m'.totalPages = m.totalPages
  refcount : ∀ q, (m'.pages q).refcount = if q ∈ b.frames then 0 else (m.pages q).refcount

end

/-- The block `alloc_pages` takes off its list, split and marked. -/
theorem allocated_of_head {block} (h : Buddy m A) (hmem : ⟨block, j⟩ ∈ A.free) (hj : order ≤ j)
    (hm' : m' = markAllocated (splitBlock (freeListRemove m block j) block order (j - order))
      block order) :
    ∃ A', Allocated m A ⟨block, order⟩
      { m' with freePages := m'.freePages - 1 <<< order,
                zone := { m'.zone with freePages := m'.zone.freePages - 1 <<< order } } A' := by
  have hjle : j ≤ maxOrder := h.lists.order_le _ hmem
  have hsplit : order + (j - order) = j := by omega
  let A1 := A.take ⟨block, j⟩ hmem
  have hin : ⟨block, order + (j - order)⟩ ∈ A1.live := by
    rw [hsplit]
    exact mem_insert_self _ _
  obtain ⟨A2, hlists, hhand, hrest, hfrs⟩ := splitBlock_lists (h.lists.remove hmem) hin (by omega)
  have hsame := (Relinked.remove m block j).trans
    (Relinked.split (freeListRemove m block j) block order (j - order))
  have hmark := markAllocated_marked
    (splitBlock (freeListRemove m block j) block order (j - order)) block order
  rw [← hm'] at hmark
  -- The live blocks are the old ones and the one handed out.
  have hold : A2.live.erase ⟨block, order⟩ = A.live := by
    rw [hrest, hsplit]
    exact erase_insert (Arena.not_live_of_free hmem)
  have hlive : A2.live = insert ⟨block, order⟩ A.live := by
    rw [← hold, insert_erase hhand]
  have hfresh := hold ▸ notMem_erase _ _
  have hall : A2.frames = A.frames := hfrs.trans (Arena.frames_take hmem)
  have htotal : m'.totalPages = m.totalPages := hmark.totalPages.trans hsame.totalPages
  have hpages := Arena.freePages_of_live_insert hfresh hlive hall
  have hsize : (⟨block, order⟩ : Block).size = 1 <<< order := size_eq _
  refine ⟨A2, ⟨?_, ?_, ?_, ?_, ?_⟩, hfresh, hlive, hall, htotal, fun q => ?_⟩
  · exact (hmark.lists hlists hhand).frame rfl rfl rfl (fun _ => rfl) (fun _ => rfl) (fun _ => rfl)
      fun _ _ => rfl
  · intro b hb
    rw [hlive] at hb
    rcases mem_insert.mp hb with rfl | hb
    · exact le_trans hj hjle
    · exact h.order_le b hb
  · intro f hf
    rw [htotal]
    exact h.inside f (hall ▸ hf)
  · change m'.zone.freePages - 1 <<< order = _
    rw [hmark.zone, hsame.zonePages, h.zonePages]
    omega
  · change m'.freePages - 1 <<< order = _
    rw [hmark.infoPages, hsame.infoPages, h.infoPages]
    omega
  · rw [← hsame.refcount q]
    exact hmark.refcount q

/-- `alloc_pages` fails without a change, when the order is too large or no block
is large enough, or hands out a block. -/
theorem allocPages_spec (h : Buddy m A) (order : Nat) :
    allocPages m order = (0, m) ∨
      ∃ pfn m' A', allocPages m order = (pfnToPhys pfn, m') ∧ Allocated m A ⟨pfn, order⟩ m' A' := by
  unfold allocPages
  by_cases horder : order > maxOrder
  · exact .inl (if_pos horder)
  rw [if_neg horder]
  cases hfind : findOrder m (maxOrder + 1 - order) order with
  | none => exact .inl rfl
  | some j =>
    obtain ⟨hj, hjlt, block, hblock⟩ := findOrder_some hfind
    obtain ⟨xs, hxs, hmem⟩ := h.lists.list j (by omega)
    have hhead := (hmem block).mp (List.mem_of_head? (hxs.head ▸ hblock))
    obtain ⟨A', hA'⟩ := allocated_of_head h hhead hj rfl
    simp only [hblock]
    exact .inr ⟨block, _, A', rfl, hA'⟩

/-- The three checks of `free_pages` pass for a live block. -/
theorem freePages_eq (h : Buddy m A) (hb : ⟨pfn, order⟩ ∈ A.live)
    (hm : mergeBuddies (maxOrder - order) (clearAllocated m pfn order) pfn order =
      (m', b.base, b.order)) :
    freePages m (pfnToPhys pfn) order =
      { freeListAdd m' b.base b.order with
        freePages := m'.freePages + 1 <<< order,
        zone := { (freeListAdd m' b.base b.order).zone with
          freePages := m'.zone.freePages + 1 <<< order } } := by
  have hle : ¬ order > maxOrder := not_lt.mpr (h.order_le _ hb)
  have hpos : 0 < pfn := (h.inside pfn (Arena.live_frames_subset hb (base_mem_frames _))).1
  have hne := pfnToPhys_ne_zero hpos
  have halign : isAligned (pfnToPhys pfn) (pageSize <<< order) = true := by
    have hsize : pageSize <<< order = 2 ^ (order + 12) := by
      simp [pageSize, Nat.shiftLeft_eq, Nat.pow_add, mul_comm]
    rw [hsize, isAligned_two_pow, pfnToPhys_eq, Nat.pow_add]
    exact Nat.mul_dvd_mul_right (Arena.live_aligned hb) _
  unfold freePages
  rw [if_neg hle, if_neg hne, halign, physToPfn_pfnToPhys]
  simp [hm]

/-- `free_pages` of a live block. -/
theorem freePages_spec (h : Buddy m A) (htotal : 2 ^ maxOrder ∣ m.totalPages)
    (hb : ⟨pfn, order⟩ ∈ A.live) :
    ∃ A', Freed m A ⟨pfn, order⟩ (freePages m (pfnToPhys pfn) order) A' := by
  have hle : order ≤ maxOrder := h.order_le _ hb
  have hclear := clearAllocated_marked m pfn order
  obtain ⟨A1, b, heq, hble, hlists, hhand, hrest, hfrs⟩ :=
    mergeBuddies_lists (n := maxOrder - order) (hclear.lists h.lists hb) hb (by omega)
      (fun f hf => hclear.totalPages.symm ▸ (h.inside f hf).2) (by rwa [hclear.totalPages])
  have hsame := Relinked.merge (maxOrder - order) (clearAllocated m pfn order) pfn order
  obtain ⟨m', hm'⟩ : ∃ m', m' =
    (mergeBuddies (maxOrder - order) (clearAllocated m pfn order) pfn order).1 := ⟨_, rfl⟩
  rw [← hm'] at hlists hsame
  have hmerged : mergeBuddies (maxOrder - order) (clearAllocated m pfn order) pfn order =
      (m', b.base, b.order) := by rw [hm', ← heq]
  rw [freePages_eq h hb hmerged]
  -- The merged block leaves the hand for the free list.
  have hadd : Lists (freeListAdd m' b.base b.order) (A1.release b hhand).free :=
    hlists.add hble fun c hc => Arena.free_base_ne hc hhand b.base_mem_frames
  have hlive : (A1.release b hhand).live = A.live.erase ⟨pfn, order⟩ := hrest
  have hall : (A1.release b hhand).frames = A.frames := (Arena.frames_release hhand).trans hfrs
  have hnotLive : ⟨pfn, order⟩ ∉ (A1.release b hhand).live := by
    rw [hlive]
    exact notMem_erase _ _
  have hinsert : A.live = insert ⟨pfn, order⟩ (A1.release b hhand).live := by
    rw [hlive, insert_erase hb]
  have hpages := Arena.freePages_of_live_insert hnotLive hinsert hall.symm
  have hsize : (⟨pfn, order⟩ : Block).size = 1 <<< order := size_eq _
  have htot : m'.totalPages = m.totalPages := hsame.totalPages.trans hclear.totalPages
  refine ⟨A1.release b hhand, ⟨?_, ?_, ?_, ?_, ?_⟩, hlive, hall, ?_, fun q => ?_⟩
  · exact hadd.frame rfl rfl rfl (fun _ => rfl) (fun _ => rfl) (fun _ => rfl) fun _ _ => rfl
  · intro c hc
    rw [hlive] at hc
    exact h.order_le c (mem_of_mem_erase hc)
  · intro f hf
    simpa [htot] using h.inside f (hall ▸ hf)
  · change m'.zone.freePages + 1 <<< order = _
    rw [hsame.zonePages, hclear.zone, h.zonePages]
    omega
  · change m'.freePages + 1 <<< order = _
    rw [hsame.infoPages, hclear.infoPages, h.infoPages]
    omega
  · simpa using htot
  · rw [← hclear.refcount q, ← hsame.refcount q]
    simp

/-! ### The free lists as a walk finds them -/

/-- A page that a walk of free list `k` reaches. -/
inductive OnList (m : MemInfo) (k : Nat) : Nat → Prop where
  | head {p : Nat} (hp : m.zone.freeLists k = some p) : OnList m k p
  | next {p q : Nat} (hp : OnList m k p) (hq : (m.pages p).next = some q) : OnList m k q

/-- A block of free list `k`: a page on it, with the order in its descriptor. -/
def FreeBlock (m : MemInfo) (k : Nat) (b : Block) : Prop :=
  k ≤ maxOrder ∧ OnList m k b.base ∧ b.order = (m.pages b.base).order

def InFreeBlock (m : MemInfo) (f : Nat) : Prop := ∃ k b, FreeBlock m k b ∧ f ∈ b.frames

theorem FreeList.onList_iff {xs} (h : FreeList m k xs) : OnList m k p ↔ p ∈ xs := by
  constructor
  · intro hp
    induction hp with
    | head hp => exact List.mem_of_head? (h.head ▸ hp)
    | next _ hq ih => exact h.links.next_mem ih hq
  · exact h.links.links.forall_of_walk (fun x hx => .head (h.head.trans hx))
      (fun x y => .next) p

/-- In a state that represents `free`, the blocks on list `k` are those of order `k`. -/
theorem Lists.freeBlock_iff (h : Lists m free) : FreeBlock m k b ↔ b ∈ free ∧ b.order = k := by
  constructor
  · rintro ⟨hk, hon, horder⟩
    obtain ⟨xs, hxs, hmem⟩ := h.list k hk
    have hb := (hmem b.base).mp (hxs.onList_iff.mp hon)
    have hkb : b.order = k := horder.trans (h.flag _ hb).2
    subst hkb
    exact ⟨hb, rfl⟩
  rintro ⟨hb, rfl⟩
  have hk := h.order_le b hb
  obtain ⟨xs, hxs, hmem⟩ := h.list b.order hk
  exact ⟨hk, hxs.onList_iff.mpr ((hmem b.base).mpr hb), (h.flag b hb).2.symm⟩

theorem Lists.inFreeBlock_iff {f} (h : Lists m A.free) : InFreeBlock m f ↔ f ∈ A.freeFrames := by
  rw [Arena.mem_freeFrames]
  constructor
  · rintro ⟨k, b, hb, hf⟩
    exact ⟨b, (h.freeBlock_iff.mp hb).1, hf⟩
  · rintro ⟨b, hb, hf⟩
    exact ⟨b.order, b, h.freeBlock_iff.mpr ⟨hb, rfl⟩, hf⟩

end Kurios.Pmm
